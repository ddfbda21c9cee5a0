import TreeCompiler.Compile
import TreeCompiler.Proofs.AllocationRounds
import TreeCompiler.Proofs.Selection.Pieces

/-!
# Namers — temps that were handed out stay handed out

No pass takes back a temp, also where it fails.  So the procedures of a file are compiled with temps
that lie behind those of the file and of the procedures before (`Procedure.exists_compile`).
-/

namespace TreeCompiler

open Selection

variable {m : Machine} {target : Target} {options : AllocOptions} {n : Namer}

/-! ## Spilling -/

namespace Spill

theorem le_replaceTemps (fp : Exp) (defs uses : List Temp) (slots : List (Temp × Access))
    (r : Replaced) (n : Namer) : n.nextTemp ≤ (replaceTemps fp defs uses slots r n).2.nextTemp := by
  induction slots generalizing r n with
  | nil => exact Nat.le_refl _
  | cons e slots ih =>
      unfold replaceTemps
      dsimp only
      split
      · exact ih r n
      · exact Nat.le_trans (Nat.le_succ _) (ih _ n.freshTemp.2)

theorem le_selectMoves (target : Target) (moves : List Stm) (n : Namer) :
    n.nextTemp ≤ (selectMoves target moves n).2.nextTemp := by
  obtain ⟨ops, hext⟩ := (covers_statements moves).appends { namer := n }
  exact hext.nextTemp_le

theorem le_spillInstr (target : Target) (slots : List (Temp × Access)) (i : Instr) (n : Namer) :
    n.nextTemp ≤ (spillInstr target slots i n).2.nextTemp := by
  unfold spillInstr
  dsimp only
  have hreplace := le_replaceTemps (.temp target.machine.framePointer) i.defs i.uses slots
    { instr := i } n
  generalize replaceTemps (.temp target.machine.framePointer) i.defs i.uses slots
    { instr := i } n = r at hreplace
  have hloads := Nat.le_trans hreplace (le_selectMoves target r.1.loads r.2)
  generalize selectMoves target r.1.loads r.2 = loads at hloads
  rcases loads with ⟨e | before, n₂⟩
  · exact hloads
  · exact Nat.le_trans hloads (le_selectMoves target r.1.stores n₂)

theorem le_spillAll (target : Target) (slots : List (Temp × Access)) (code : List Instr)
    (n : Namer) :
    n.nextTemp ≤ (spillAll target slots code n).2.nextTemp := by
  induction code generalizing n with
  | nil => exact Nat.le_refl _
  | cons i rest ih =>
      unfold spillAll
      have hfirst := le_spillInstr target slots i n
      generalize spillInstr target slots i n = r at hfirst
      rcases r with ⟨e | r, n'⟩
      · exact hfirst
      · exact Nat.le_trans hfirst (ih n')

end Spill

theorem Frame.le_spill (frame : Frame) (m : Machine) (code : List Instr) (spilled : List Temp)
    (n : Namer) : n.nextTemp ≤ (frame.spill m code spilled n).2.2.nextTemp :=
  Spill.le_spillAll _ _ code n

/-! ## Procedures -/

theorem Allocation.le_allocateWithin (left done : Nat) (p : Progress) :
    p.namer.nextTemp ≤ (allocateWithin m options done left p).2.nextTemp := by
  induction left generalizing done p with
  | zero => exact Nat.le_refl _
  | succ left ih =>
      have hturn := turn m options done left p
      generalize allocateWithin m options done (left + 1) p = outcome at hturn
      cases hturn with
      | uncolored | last => exact Nat.le_refl _
      | @stop g r e frame n _ _ hspill =>
          have hle := p.frame.le_spill m p.instrs r.spilled.toList p.namer
          rwa [hspill] at hle
      | @next g r s frame n _ _ hspill =>
          have hle := p.frame.le_spill m p.instrs r.spilled.toList p.namer
          rw [hspill] at hle
          exact Nat.le_trans hle (ih (done + 1) { instrs := s.instrs, frame, namer := n
                                                  introduced := p.introduced.union (.ofList s.fresh)
                                                  spilled := p.spilled ++ r.spilled.toList })

/-- Registers get temps one after the other. -/
theorem Namer.freshFor_spec (n : Namer) (rs : List Temp) :
    (n.freshFor rs).1.map Prod.fst = rs ∧
      (n.freshFor rs).1.map Prod.snd = (List.range' n.nextTemp rs.length).map Temp.mk ∧
      (n.freshFor rs).2.nextTemp = n.nextTemp + rs.length := by
  induction rs generalizing n with
  | nil => exact ⟨rfl, rfl, rfl⟩
  | cons r rs ih =>
      obtain ⟨hfst, hsnd, hnext⟩ := ih n.freshTemp.2
      rw [Namer.nextTemp_freshTemp] at hsnd hnext
      unfold Namer.freshFor
      dsimp only
      refine ⟨by rw [List.map_cons, hfst], ?_, by rw [hnext, List.length_cons]; omega⟩
      rw [List.map_cons, hsnd, List.length_cons, List.range'_succ, List.map_cons]
      rfl

theorem Namer.le_freshFor (n : Namer) (rs : List Temp) :
    n.nextTemp ≤ (n.freshFor rs).2.nextTemp := by
  rw [(n.freshFor_spec rs).2.2]
  exact Nat.le_add_right _ _

theorem Frame.le_select (frame : Frame) (m : Machine) (body : List Stm) (n : Namer) :
    n.nextTemp ≤ (frame.select m body n).2.nextTemp := by
  obtain ⟨ops, hext⟩ := ((@covers_statements ⟨m, frame.sizeSymbol⟩ body).bind_nil fun _ =>
    covers_emit .exit).appends { namer := n }
  exact hext.nextTemp_le

namespace Procedure

theorem le_compile (p : Procedure) (n : Namer) :
    n.nextTemp ≤ (p.compile m options n).2.nextTemp := by
  unfold compile
  have hselect : n.nextTemp ≤ (p.select m n).2.nextTemp :=
    Nat.le_trans (n.le_freshFor _) ((p.frame m).le_select m _ _)
  generalize p.select m n = r at hselect
  rcases r with ⟨e | s, n'⟩
  · exact hselect
  · dsimp only at hselect ⊢
    exact Nat.le_trans hselect (Allocation.le_allocateWithin _ 0
      ⟨s.instrs, s.frame, n', .empty, []⟩)

/-- A procedure that gets an allocation has been selected before. -/
theorem exists_of_compile {p : Procedure} {a : Allocation}
    (hok : (p.compile m options n).1.outcome = .ok a) :
    ∃ s n₁ n₂, p.select m n = (.ok s, n₁) ∧ s.frame.allocate m options s.instrs n₁ = (.ok a, n₂) ∧
      (p.compile m options n).1.selected? = some s.instrs := by
  unfold compile at hok ⊢
  rcases hselect : p.select m n with ⟨e | s, n₁⟩
  · rw [hselect] at hok
    cases hok
  · rw [hselect] at hok
    dsimp only at hok
    rcases hallocate : s.frame.allocate m options s.instrs n₁ with ⟨e | a', n₂⟩
    · rw [hallocate] at hok
      cases hok
    · rw [hallocate] at hok
      cases hok
      exact ⟨s, n₁, n₂, rfl, hallocate, rfl⟩

/-- Each procedure of a file is compiled with some namer behind the one of the file. -/
theorem exists_compile {ps : List Procedure} {i : Nat} {p : Procedure} {a : Attempt}
    (hp : ps[i]? = some p) (ha : (compileAll m options ps n).1[i]? = some a) :
    ∃ n', n.nextTemp ≤ n'.nextTemp ∧ (p.compile m options n').1 = a := by
  induction ps generalizing n i with
  | nil => cases hp
  | cons q ps ih =>
      cases i with
      | zero =>
          cases hp
          exact ⟨n, Nat.le_refl _, Option.some.inj ha⟩
      | succ i =>
          obtain ⟨n', hle, h⟩ := ih hp ha
          exact ⟨n', Nat.le_trans (q.le_compile n) hle, h⟩

end Procedure

end TreeCompiler
