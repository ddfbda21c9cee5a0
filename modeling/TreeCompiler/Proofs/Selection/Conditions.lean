import TreeCompiler.Proofs.Selection.Branches

/-!
# Conditions — a conditional jump tests the relation of its tree

A conditional jump is known to the processor by its mnemonic, which stands for a condition on the
flags of the last comparison (`Flags.condition?`).  The mnemonic that selection writes, the operands
that it compares and their order go together: after the operations for a `CJUMP` the condition holds
exactly if the relation holds between the values of the trees (`Stm.cjump_tests`), also where the
operands changed places for the sake of an immediate.
-/

namespace TreeCompiler

open Selection

/-! ## Mnemonics -/

/-- The condition on the flags on which the jump with a mnemonic is taken. -/
def Flags.condition? : String → Option (Flags → Bool)
  | "je" => some fun f => f.zero
  | "jne" => some fun f => !f.zero
  | "jl" => some fun f => f.sign != f.overflow
  | "jle" => some fun f => f.zero || f.sign != f.overflow
  | "jg" => some fun f => !f.zero && f.sign == f.overflow
  | "jge" => some fun f => f.sign == f.overflow
  | "jb" => some fun f => f.carry
  | "jbe" => some fun f => f.carry || f.zero
  | "ja" => some fun f => !f.carry && !f.zero
  | "jae" => some fun f => !f.carry
  | _ => none

/-- The mnemonic of a relation stands for the condition of that relation. -/
theorem Flags.condition?_jumpMnemonic (op : RelOp) :
    condition? op.jumpMnemonic = some fun f => f.holds op := by
  cases op <;> rfl

/-! ## Conditional jumps -/

/-- Selection for a conditional jump succeeds: operations for the operands, a comparison and a jump.
From every state in which both trees have values, operands and comparison leave flags on which the
condition that the jump's mnemonic stands for holds if and only if the relation holds between the
two values, left to right as the tree has them. -/
theorem Stm.cjump_tests (symbol : String) {op : RelOp} {l r : Exp} (t f : Label)
    {S : Selection.State} (hfresh : Temp.firstVirtual ≤ S.namer.nextTemp)
    (hl : l.plain S.namer.nextTemp = true) (hr : r.plain S.namer.nextTemp = true) :
    ∃ S' operands left right jump mnemonic condition,
      ((Stm.cjump op l r t f).select (.x86_64 symbol)).run.run S = (.ok (), S') ∧
      S'.operations.toList = S.operations.toList ++ (operands ++ [.compare left right, jump]) ∧
      jump.instr (.x86_64 symbol) = .branch (mnemonic ++ " `j0") [t, f] ∧
      Flags.condition? mnemonic = some condition ∧
      ∀ (σ : Scope symbol) flags memory replies a b w₁ w₂, S'.memoryArguments ≤ σ.words →
        l.eval σ ⟨memory, replies, []⟩ = some (a, w₁) → r.eval σ w₁ = some (b, w₂) →
        ∃ q compared,
          Operation.execAll σ.symbols symbol (operands ++ [.compare left right])
            ⟨σ.file, flags, ⟨memory, replies, []⟩⟩ = some q ∧
          q.flags = some compared ∧ (condition compared = true ↔ op.holds a b = true) := by
  -- what is compared has the values of the trees, in either order of the operands
  have hcompares : Evaluates S.namer.nextTemp
      (comparands op l r (l.select (.x86_64 symbol)) (r.select (.x86_64 symbol)))
      fun (σ : Scope symbol) w =>
        (l.eval σ w).bind fun a => (r.eval σ a.2).map fun b => (op.holds a.1 b.1, b.2) :=
    evaluates_comparands op (evaluates_select hfresh l hl) (evaluates_select hfresh r hr)
  obtain ⟨c, S₁, operands, hrun, hext, -, hexec⟩ := hcompares S (Nat.le_refl _)
  let compare : Operation := .compare c.left c.right
  let jump : Operation := .branch c.op t f
  have hselect : ((Stm.cjump op l r t f).select (.x86_64 symbol)).run.run S =
      (.ok (), { S₁ with operations := (S₁.operations.push compare).push jump }) := by
    rw [Stm.select, cjump_eq]
    exact run_bind_ok hrun
  refine ⟨_, operands, c.left, c.right, jump, c.op.jumpMnemonic, fun f => f.holds c.op, hselect, ?_,
    rfl, Flags.condition?_jumpMnemonic c.op, ?_⟩
  · rw [Array.toList_push, Array.toList_push, hext.operations]
    simp only [List.append_assoc, List.cons_append, List.nil_append]
    rfl
  · intro σ flags memory replies a b w₁ w₂ hwords ha hb
    have heval : ((l.eval σ ⟨memory, replies, []⟩).bind fun a =>
        (r.eval σ a.2).map fun b => (op.holds a.1 b.1, b.2)) = some (op.holds a b, w₂) := by
      rw [ha, Option.bind_some, hb, Option.map_some]
    obtain ⟨q, hq, -, -, hholds⟩ :=
      hexec σ _ _ _ w₂ hwords (.start _ σ flags memory replies) heval
    refine ⟨Operation.compared q c.left c.right, _, ?_, rfl, ?_⟩
    · exact (Operation.execAll_append hq).trans
        ((Operation.execAll_singleton _).trans (Operation.exec_compare ..))
    · calc (Flags.ofCompare (q.file c.left) (c.right.value q)).holds c.op = true
          ↔ c.op.holds (q.file c.left) (c.right.value q) = true := by rw [Flags.holds_ofCompare]
        _ ↔ op.holds a b = true := iff_of_eq (congrArg (· = true) hholds)

/-- A constant on the left becomes the immediate of a comparison with a temp, whose difference
overflows: five is not below the least of all words. -/
theorem Stm.cjump_tests_overflow :
    let s : Stm := .cjump .lt (.const 5) (.temp ⟨100⟩) "L1" "L2"
    let S : Selection.State := { namer := { nextTemp := 101 } }
    let σ : Scope "f_framesize" := ⟨fun _ => BitVec.intMin 64, fun _ => 0, 0, by decide⟩
    let w : World := ⟨fun _ => 0, fun _ => ⟨0, fun _ => 0, fun _ => 0⟩, []⟩
    ∃ S' operands left right jump mnemonic condition q compared,
      (s.select (.x86_64 "f_framesize")).run.run S = (.ok (), S') ∧
      S'.operations.toList = operands ++ [.compare left right, jump] ∧
      jump.instr (.x86_64 "f_framesize") = .branch (mnemonic ++ " `j0") ["L1", "L2"] ∧
      Flags.condition? mnemonic = some condition ∧
      Operation.execAll σ.symbols "f_framesize" (operands ++ [.compare left right])
        ⟨σ.file, none, w⟩ = some q ∧
      q.flags = some compared ∧ condition compared = false := by
  intro s S σ w
  obtain ⟨S', operands, left, right, jump, mnemonic, condition, hrun, hops, hjump, hcondition,
      htests⟩ :=
    @Stm.cjump_tests "f_framesize" .lt (.const 5) (.temp ⟨100⟩) "L1" "L2" S
      (by decide) (by decide) (by decide)
  have hstate : S' = ((s.select (.x86_64 "f_framesize")).run.run S).2 := by rw [hrun]
  have hwords : S'.memoryArguments ≤ σ.words := by
    rw [hstate]
    decide
  obtain ⟨q, compared, hq, hflags, hiff⟩ :=
    htests σ none w.memory w.replies 5 (BitVec.intMin 64) w w hwords rfl rfl
  refine ⟨S', operands, left, right, jump, mnemonic, condition, q, compared, hrun, hops, hjump,
    hcondition, hq, hflags, Bool.eq_false_iff.2 fun h => ?_⟩
  exact absurd (hiff.1 h) (by decide)

end TreeCompiler
