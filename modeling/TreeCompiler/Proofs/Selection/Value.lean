import TreeCompiler.Proofs.Selection.Calls

/-!
# Value — the code selected for an expression computes its value

By induction over the tree every expression without statements, and every address that is folded
into a memory operand, is computed by the operations selected for it (`evaluates_select`).  The main
statement, `Exp.select_computes`, says what that means for a run on a processor.
-/

namespace TreeCompiler

open Selection X86

namespace Selection

variable {symbol : String} {k : Nat}

/-- An address is computed if its value is, and the values of its operands. -/
theorem evaluates_address {e : Exp} {x : SelectM Temp}
    (hx : Evaluates k x fun (σ : Scope symbol) w => e.eval σ w)
    (hoperands : ∀ op l r, e = .binop op l r →
      (Evaluates k (l.select (.x86_64 symbol)) fun (σ : Scope symbol) w => l.eval σ w) ∧
      (Evaluates k (r.select (.x86_64 symbol)) fun (σ : Scope symbol) w => r.eval σ w)) :
    Evaluates k (e.selectAddress (.x86_64 symbol) x) fun (σ : Scope symbol) w => e.eval σ w := by
  -- the address with nothing folded in
  have hbase : Evaluates k (baseAddress (.x86_64 symbol) e x 0) fun (σ : Scope symbol) w =>
      e.eval σ w := by
    refine (evaluates_baseAddress (by decide) hx).congr fun σ w => ?_
    cases e.eval σ w with
    | none => rfl
    | some a => exact congrArg (fun v => some (v, a.2)) (BitVec.add_zero _).symm
  unfold Exp.selectAddress
  split
  · exact evaluates_sumAddress (hoperands _ _ _ rfl).1 (hoperands _ _ _ rfl).2 hx
  · exact evaluates_differenceAddress (hoperands _ _ _ rfl).1 hx
  · exact hbase

mutual

/-- The operations selected for an expression leave its value in a temp. -/
theorem evaluates_select (hk : Temp.firstVirtual ≤ k) : (e : Exp) → e.plain k = true →
    Evaluates k (e.select (.x86_64 symbol)) fun (σ : Scope symbol) w => e.eval σ w
  | .binop op l r, h => by
      rw [Exp.plain, Bool.and_eq_true] at h
      rw [Exp.select]
      exact evaluates_binop op hk (evaluates_select hk l h.1) (evaluates_select hk r h.2)
  | .mem e, h => by
      rw [Exp.plain] at h
      rw [Exp.select]
      exact evaluates_loadValue hk
        (evaluates_address (evaluates_select hk e h) (evaluates_operands hk e h))
  | .temp t, h => by
      rw [Exp.select]
      exact evaluates_tempValue hk h
  | .eseq _ _, h => by cases h
  | .name l, _ => by
      rw [Exp.select]
      exact evaluates_labelValue hk l
  | .const c, _ => by
      rw [Exp.select]
      exact evaluates_constantValue hk c
  | .call f args, h => by
      rw [Exp.plain, Bool.and_eq_true] at h
      rw [Exp.select]
      refine (evaluates_callValue hk (evaluates_callee (evaluates_select hk f h.1))
        (evaluates_selectAll hk args h.2)).congr fun σ w => ?_
      rw [Exp.eval]
      simp only [Option.map_eq_bind]
      rfl

theorem evaluates_operands (hk : Temp.firstVirtual ≤ k) : (e : Exp) → e.plain k = true →
    ∀ op l r, e = .binop op l r →
      (Evaluates k (l.select (.x86_64 symbol)) fun (σ : Scope symbol) w => l.eval σ w) ∧
      (Evaluates k (r.select (.x86_64 symbol)) fun (σ : Scope symbol) w => r.eval σ w)
  | .binop op l r, h, _, _, _, rfl => by
      rw [Exp.plain, Bool.and_eq_true] at h
      exact ⟨evaluates_select hk l h.1, evaluates_select hk r h.2⟩

theorem evaluates_selectAll (hk : Temp.firstVirtual ≤ k) : (es : List Exp) →
    Exp.plainAll k es = true →
    Evaluates k (Exp.selectAll (.x86_64 symbol) es) fun (σ : Scope symbol) w => Exp.evalAll σ es w
  | [], _ => by
      rw [Exp.selectAll]
      exact evaluates_nil
  | e :: es, h => by
      rw [Exp.plainAll, Bool.and_eq_true] at h
      rw [Exp.selectAll]
      exact evaluates_cons (evaluates_select hk e h.1) (evaluates_selectAll hk es h.2)

end

end Selection

/-! ## Runs -/

/-- Selection for an expression without statements succeeds, and its operations compute the tree:
from every state, if the expression has a value, a run leaves that value in the returned temp, reads
and calls what the tree reads and calls in the same order, changes memory through these calls and in
the area of outgoing arguments only, and leaves the stack pointer and all temps alone that were
handed out before. -/
theorem Exp.select_computes (symbol : String) {e : Exp} {S : Selection.State}
    (hfresh : Temp.firstVirtual ≤ S.namer.nextTemp)
    (hplain : e.plain S.namer.nextTemp = true) :
    ∃ t S' ops, (e.select (.x86_64 symbol)).run.run S = (.ok t, S') ∧
      S'.operations.toList = S.operations.toList ++ ops ∧
      ∀ (σ : Scope symbol) flags memory replies v w, S'.memoryArguments ≤ σ.words →
        e.eval σ ⟨memory, replies, []⟩ = some (v, w) →
        ∃ q,
          Operation.execAll σ.symbols symbol ops ⟨σ.file, flags, ⟨memory, replies, []⟩⟩ = some q ∧
          q.file t = v ∧
          List.Forall₂ (Matches σ.area) w.history q.world.history ∧
          σ.area.Outside w.memory q.world.memory ∧
          q.file rsp = σ.file rsp ∧
          ∀ u, Machine.x86_64.isRegister u = false → u.id < S.namer.nextTemp →
            q.file u = σ.file u := by
  -- all temps that were handed out before are left alone, and those of the tree are among them
  have hselect : Evaluates S.namer.nextTemp (e.select (.x86_64 symbol))
      fun (σ : Scope symbol) w => e.eval σ w := evaluates_select hfresh e hplain
  obtain ⟨t, S', ops, hrun, hext, -, hexec⟩ := hselect S (Nat.le_refl _)
  refine ⟨t, S', ops, hrun, hext.operations, fun σ flags memory replies v w hwords heval => ?_⟩
  obtain ⟨q, hq, hkeeps, hagrees, hv⟩ := hexec σ _ _ v w hwords (.start ..) heval
  exact ⟨q, hq, hv, hagrees.history, hagrees.memory, hkeeps rsp (.inl rfl),
    fun u hu hlt => hkeeps u (.inr ⟨hu, hlt⟩)⟩

/-- A word of the frame is divided by what a call with seven arguments returns, the last of them a
product that is passed in memory. -/
theorem Exp.select_computes_seventh_argument :
    let e : Exp := .binop .div (.mem (.binop .minus (.temp Machine.x86_64.framePointer) (.const 8)))
      (.call (.name "g") [.const 1, .const 2, .const 3, .const 4, .const 5, .const 6,
        .binop .mul (.temp ⟨100⟩) (.const (-7))])
    let S : Selection.State := { namer := { nextTemp := 101 } }
    let σ : Scope "f_framesize" := ⟨fun t => if t = rsp then 4096 else 3,
      fun l => if l = "f_framesize" then 32 else 64, 1, by decide⟩
    let memory : Memory := fun _ => 255
    let replies : Nat → Reply := fun _ => ⟨1, memory, fun _ => 9⟩
    ∃ t S' ops w q, (e.select (.x86_64 "f_framesize")).run.run S = (.ok t, S') ∧
      S'.operations.toList = ops ∧ e.eval σ ⟨memory, replies, []⟩ = some (-1, w) ∧
      Operation.execAll σ.symbols "f_framesize" ops ⟨σ.file, none, ⟨memory, replies, []⟩⟩ = some q ∧
      q.file t = -1 ∧ List.Forall₂ (Matches σ.area) w.history q.world.history := by
  intro e S σ memory replies
  obtain ⟨t, S', ops, hrun, hops, hexec⟩ :=
    Exp.select_computes "f_framesize" (e := e) (S := S) (by decide) (by decide)
  have hstate : S' = ((e.select (.x86_64 "f_framesize")).run.run S).2 := by rw [hrun]
  have hwords : S'.memoryArguments ≤ σ.words := by
    rw [hstate]
    decide +kernel
  have heval : (e.eval σ ⟨memory, replies, []⟩).map Prod.fst = some (-1) := by decide +kernel
  obtain ⟨⟨v, w⟩, hw, rfl⟩ := Option.map_eq_some_iff.1 heval
  obtain ⟨q, hq, hv, hhistory, -⟩ := hexec σ none memory replies _ w hwords hw
  exact ⟨t, S', ops, w, q, hrun, hops, hw, hq, hv, hhistory⟩

end TreeCompiler
