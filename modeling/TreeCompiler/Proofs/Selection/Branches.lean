import TreeCompiler.Proofs.Selection.Control
import TreeCompiler.Proofs.Selection.Room
import TreeCompiler.Proofs.Selection.Value

/-!
# Branches — where a conditional jump of a body goes

A conditional jump is selected as operations for its operands, a comparison and one branch.  Control
goes to the first label where the relation holds between the operands, and otherwise on to the code
for the statement that follows in the sequence (`Stm.cjump_transfers`).  So the second label is
reached if it stands there, as it does in trees that are laid out for it; where it stands further
down it is not (`Stm.cjump_misses_label`).
-/

namespace TreeCompiler

open Operation

namespace Selection

/-! ## Comparisons -/

section Comparison

variable {symbol : String} {k : Nat} {S S' : State} {ops : List Operation}

/-- Whether the relation of a comparison holds between what it compares. -/
def Comparison.holds (c : Comparison) (p : Processor) : Bool :=
  c.op.holds (p.file c.left) (c.right.value p)

instance : Result Comparison Bool where
  lasts n c := Virtual n c.left ∧ Result.lasts n c.right
  value _ p c := c.holds p
  lasts_mono h hle := ⟨h.1.mono hle, Result.lasts_mono h.2 hle⟩
  value_eq {symbol σ p q _ c} h hkeeps := by
    have hright : c.right.value q = c.right.value p := Result.value_eq (σ := σ) h.2 hkeeps
    rw [Comparison.holds, Comparison.holds, hkeeps _ (.inr h.1), hright]

/-- What is compared are the values of the trees, also where the operands changed places. -/
theorem evaluates_comparands {l r : Exp} {left right : SelectM Temp} (op : RelOp)
    (hl : Evaluates k left fun (σ : Scope symbol) w => l.eval σ w)
    (hr : Evaluates k right fun (σ : Scope symbol) w => r.eval σ w) :
    Evaluates k (comparands op l r left right) fun (σ : Scope symbol) w =>
      (l.eval σ w).bind fun a => (r.eval σ a.2).map fun b => (op.holds a.1 b.1, b.2) := by
  have hcompare : ∀ (op : RelOp) (a : Temp) (b : Operand) (S : State), k ≤ S.namer.nextTemp →
      Result.lasts S.namer.nextTemp a → Result.lasts S.namer.nextTemp b →
      Computes k S (fun (σ : Scope symbol) p => (Result.value σ p a, Result.value σ p b))
        (pure (⟨a, b, op⟩ : Comparison)) fun _ v w => some (op.holds v.1 v.2, w) :=
    fun op a b S _ ha hb => computes_pure ⟨ha, hb⟩ fun _ _ _ _ => rfl
  unfold comparands
  split
  · -- the operands are evaluated in the other order, but one of them is a constant
    rename_i c hc _
    obtain rfl := constant?_eq_some hc
    refine (hr.bind₂ _ (evaluates_operand hl) (hcompare op.commute)).congr fun σ w => ?_
    rw [Exp.eval, Option.bind_some, Option.map_eq_bind]
    simp only [Exp.eval, Option.bind_some, RelOp.holds_commute]
    rfl
  · refine (hl.bind₂ _ (evaluates_operand hr) (hcompare op)).congr fun σ w => ?_
    simp only [Option.map_eq_bind]
    rfl

/-! ## Operands of any trees -/

/-- Selection for an expression appends operations and leaves an operand. -/
inductive Leaves (target : Target) (ops : List Operation) : Exp → Operand → Prop
  | temp {e : Exp} {t : Temp} {S S' : State} (hrun : (e.select target).run.run S = (.ok t, S'))
      (hext : Extends S S' ops) : Leaves target ops e (.temp t)
  | imm {c : Int} (hops : ops = []) (hc : isImm32 c = true) : Leaves target ops (.const c) (.imm c)

variable {target : Target}

theorem exists_leaves {e : Exp} {t : Temp} (hrun : (e.select target).run.run S = (.ok t, S')) :
    ∃ ops, Extends S S' ops ∧ Leaves target ops e (.temp t) := by
  obtain ⟨ops, hext⟩ := (covers_value e).follows hrun
  exact ⟨ops, hext, .temp hrun hext⟩

theorem exists_leaves_operand {e : Exp} {b : Operand}
    (hrun : (operand e (e.select target)).run.run S = (.ok b, S')) :
    ∃ ops, Extends S S' ops ∧ Leaves target ops e b := by
  unfold operand at hrun
  split at hrun
  · rename_i c hc
    obtain ⟨rfl, himm⟩ := immediate?_eq_some hc
    cases hrun
    exact ⟨[], .refl S, .imm rfl himm⟩
  · rw [map_eq_pure_bind] at hrun
    obtain ⟨t, S₁, ht, hb⟩ := exists_of_run_bind hrun
    cases hb
    exact exists_leaves ht

/-- The operations for the operands of a conditional jump leave what the comparison is of.  They are
in order unless the left operand is a constant. -/
def Decides (target : Target) (op : RelOp) (l r : Exp) (ops : List Operation) (c : Comparison) :
    Prop :=
  ∃ left right x y, Leaves target left l x ∧ Leaves target right r y ∧
    (ops = left ++ right ∨ l.constant?.isSome ∧ ops = right ++ left) ∧
    ∀ p, c.holds p = op.holds (x.value p) (y.value p)

theorem exists_decides {op : RelOp} {l r : Exp} {c : Comparison}
    (hrun : (comparands op l r (l.select target) (r.select target)).run.run S = (.ok c, S')) :
    ∃ ops, Extends S S' ops ∧ Decides target op l r ops c := by
  unfold comparands at hrun
  split at hrun
  · rename_i hconst _
    obtain ⟨a, S₁, ha, hrest⟩ := exists_of_run_bind hrun
    obtain ⟨b, S₂, hb, hc⟩ := exists_of_run_bind hrest
    cases hc
    obtain ⟨right, hext, hright⟩ := exists_leaves ha
    obtain ⟨left, hext', hleft⟩ := exists_leaves_operand hb
    exact ⟨_, hext.trans hext', left, right, b, .temp a, hleft, hright,
      .inr ⟨by rw [hconst, Option.isSome_some], rfl⟩, fun p => op.holds_commute ..⟩
  · obtain ⟨a, S₁, ha, hrest⟩ := exists_of_run_bind hrun
    obtain ⟨b, S₂, hb, hc⟩ := exists_of_run_bind hrest
    cases hc
    obtain ⟨left, hext, hleft⟩ := exists_leaves ha
    obtain ⟨right, hext', hright⟩ := exists_leaves_operand hb
    exact ⟨_, hext.trans hext', left, right, .temp a, b, hleft, hright, .inl rfl, fun _ => rfl⟩

end Comparison

/-! ## Conditional jumps in code -/

/-- Where the code for a conditional jump stands. -/
structure JumpSite (code : List Operation) (ifTrue ifFalse : Label) where
  before : List Operation
  operands : List Operation
  comparison : Comparison
  after : List Operation
  code_eq : code = before ++ operands ++ .compare comparison.left comparison.right ::
    .branch comparison.op ifTrue ifFalse :: after

/-- Control goes from a point to a label of the code if a condition holds, else to a given rest. -/
def Transfers (symbols : String → Word) (symbol : String) (code : List Operation) (x : Point)
    (holds : Bool) (ifTrue : Label) (after : List Operation) : Prop :=
  ∃ q, (holds = true →
      ∀ dest, seek ifTrue code = some dest → Reaches symbols symbol code x (dest, q)) ∧
    (holds = false → Reaches symbols symbol code x (after, q))

theorem Transfers.of_reaches {symbols : String → Word} {symbol : String}
    {code after : List Operation} {x y : Point} {holds : Bool} {ifTrue : Label}
    (h : Reaches symbols symbol code x y)
    (hy : Transfers symbols symbol code y holds ifTrue after) :
    Transfers symbols symbol code x holds ifTrue after := by
  obtain ⟨q, htrue, hfalse⟩ := hy
  exact ⟨q, fun hholds dest hseek => h.trans (htrue hholds dest hseek),
    fun hholds => h.trans (hfalse hholds)⟩

namespace JumpSite

variable {symbols : String → Word} {symbol : String} {code : List Operation}
  {ifTrue ifFalse : Label} {p q : Processor}

/-- The code from the comparison on. -/
def jump (site : JumpSite code ifTrue ifFalse) : List Operation :=
  .compare site.comparison.left site.comparison.right ::
    .branch site.comparison.op ifTrue ifFalse :: site.after

/-- The code from the first operation for the operands on. -/
def start (site : JumpSite code ifTrue ifFalse) : List Operation := site.operands ++ site.jump

/-- The comparison decides where control goes. -/
theorem transfers_jump (site : JumpSite code ifTrue ifFalse) :
    Transfers symbols symbol code (site.jump, p) (site.comparison.holds p) ifTrue site.after :=
  ⟨_, fun hholds _ hseek => reaches_ifTrue hseek hholds, reaches_next⟩

theorem transfers_start (site : JumpSite code ifTrue ifFalse)
    (hoperands : execAll symbols symbol site.operands p = some q) :
    Transfers symbols symbol code (site.start, p) (site.comparison.holds q) ifTrue site.after :=
  .of_reaches (reaches_execAll hoperands) site.transfers_jump

/-- With operands without statements the values of the trees decide where control goes. -/
theorem transfers_of_eval (site : JumpSite code ifTrue ifFalse) {k : Nat} {S S' : State}
    {op : RelOp} {l r : Exp} {σ : Scope symbol} {flags : Option Flags} {memory : Memory}
    {replies : Nat → Reply} {a b : Word} {w₁ w₂ : World} (hfresh : Temp.firstVirtual ≤ k)
    (hk : k ≤ S.namer.nextTemp)
    (hrun : (comparands op l r (l.select (.x86_64 symbol)) (r.select (.x86_64 symbol))).run.run S =
      (.ok site.comparison, S'))
    (hext : Extends S S' site.operands) (hl : l.plain k = true) (hr : r.plain k = true)
    (hwords : S'.memoryArguments ≤ σ.words)
    (ha : l.eval σ ⟨memory, replies, []⟩ = some (a, w₁)) (hb : r.eval σ w₁ = some (b, w₂)) :
    Transfers σ.symbols symbol code (site.start, ⟨σ.file, flags, ⟨memory, replies, []⟩⟩)
      (op.holds a b) ifTrue site.after := by
  have hcompares : Evaluates k
      (comparands op l r (l.select (.x86_64 symbol)) (r.select (.x86_64 symbol)))
      fun (σ : Scope symbol) w =>
        (l.eval σ w).bind fun a => (r.eval σ a.2).map fun b => (op.holds a.1 b.1, b.2) :=
    evaluates_comparands op (evaluates_select hfresh l hl) (evaluates_select hfresh r hr)
  obtain ⟨-, hexec⟩ := hcompares.of_run hk hrun hext
  have heval : ((l.eval σ ⟨memory, replies, []⟩).bind fun a =>
      (r.eval σ a.2).map fun b => (op.holds a.1 b.1, b.2)) = some (op.holds a b, w₂) := by
    rw [ha, Option.bind_some, hb, Option.map_some]
  obtain ⟨q, hq, -, -, hholds⟩ :=
    hexec σ _ _ _ w₂ hwords (.start k σ flags memory replies) heval
  exact hholds ▸ site.transfers_start hq

end JumpSite

/-! ## Conditional jumps of bodies -/

section Body

variable {frame : Frame} {m : Machine} {body : List Stm} {n n' : Namer} {selected : Selected}

/-- Selection for statements appends operations. -/
def Appends (target : Target) (stms : List Stm) (ops : List Operation) : Prop :=
  ∃ S S', (Stm.selectAll target stms).run.run S = (.ok (), S') ∧ Extends S S' ops

variable {target : Target}

/-- The code for statements that begin with a label begins with it. -/
theorem Appends.head?_eq {l : Label} {rest : List Stm} {ops : List Operation}
    (h : Appends target (.label l :: rest) ops) : ops.head? = some (label l) := by
  obtain ⟨S, S', hrun, hext⟩ := h
  rw [Stm.selectAll, Stm.select] at hrun
  obtain ⟨_, S₁, hlabel, hrest⟩ := exists_of_run_bind hrun
  obtain ⟨ops', hext'⟩ := (covers_statements rest).follows hrest
  rw [hext.operations_eq ((extends_of_emit hlabel).trans hext')]
  rfl

/-- The operations for a conditional jump stand in one piece, and behind them the operations for the
statements that follow it in its sequence. -/
theorem exists_jumpSite {pre post : List Stm} {op : RelOp} {l r : Exp} {t f : Label}
    {S S' : State} (last : List Operation)
    (hjump : pre ++ .cjump op l r t f :: post ∈ Stm.sequences body)
    (hrun : (Stm.selectAll target body).run.run S = (.ok (), S')) :
    ∃ (site : JumpSite (S'.operations.toList ++ last) t f) (S₁ S₂ : State),
      (comparands op l r (l.select target) (r.select target)).run.run S₁ =
        (.ok site.comparison, S₂) ∧
      Follows S S₁ ∧ Extends S₁ S₂ site.operands ∧ Follows S₂ S' ∧
      ∃ ops rest, Appends target post ops ∧ site.after = ops ++ rest := by
  obtain ⟨S₁, S₂, S₃, ⟨before, hbefore⟩, hs, hpost, ⟨after, hafter⟩⟩ := exists_piece hjump hrun
  rw [Stm.select, cjump_eq] at hs
  obtain ⟨c, S₀, hc, hemit⟩ := exists_of_run_bind hs
  obtain ⟨_, S₀', hcompare, hbranch⟩ := exists_of_run_bind hemit
  obtain ⟨operands, hoperands, -⟩ := exists_decides hc
  obtain ⟨follow, hfollow⟩ := (covers_statements post).follows hpost
  have hjumps : Extends S₀ S₂ ([compare c.left c.right] ++ [branch c.op t f]) :=
    (extends_of_emit hcompare).trans (extends_of_emit hbranch)
  refine ⟨⟨S₁.operations.toList, operands, c, follow ++ (after ++ last), ?_⟩, S₁, S₀, hc,
    ⟨before, hbefore⟩, hoperands, ⟨_, hjumps.trans (hfollow.trans hafter)⟩, follow, after ++ last,
    ⟨S₂, S₃, hpost, hfollow⟩, rfl⟩
  rw [hafter.operations, hfollow.operations, hjumps.operations, hoperands.operations]
  simp only [List.append_assoc, List.cons_append, List.nil_append]

end Body

end Selection

/-! ## Runs -/

open Selection

/-- Where selection for a body succeeds, the code for each conditional jump in it, however deep in
the tree, is an evaluation of its operands, a comparison and one branch.  From the comparison on,
control goes to the first label if the relation holds between what the operands left, and otherwise
on to the code for the statements that follow the jump, so that the second label is reached if it
stands there.  Operands without statements left the values of their trees. -/
theorem Stm.cjump_transfers {name : Label} {locals : Int} {body : List Stm} {n n' : Namer}
    {selected : Selected} {pre post : List Stm} {op : RelOp} {l r : Exp} {t f : Label}
    (hselect : (Frame.new name locals .x86_64).select .x86_64 body n = (.ok selected, n'))
    (hjump : pre ++ .cjump op l r t f :: post ∈ Stm.sequences body) :
    let symbol := (Frame.new name locals .x86_64).sizeSymbol
    ∃ (code : List Operation) (site : JumpSite code t f),
      selected.instrs = code.map (instr (.x86_64 symbol)) ∧
      (∃ ops rest, Appends (.x86_64 symbol) post ops ∧ site.after = ops ++ rest) ∧
      (∀ g rest, post = .label g :: rest → site.after.head? = some (.label g)) ∧
      Decides (.x86_64 symbol) op l r site.operands site.comparison ∧
      (∀ symbols p, Transfers symbols symbol code (site.jump, p) (site.comparison.holds p) t
        site.after) ∧
      (Temp.firstVirtual ≤ n.nextTemp → l.plain n.nextTemp = true → r.plain n.nextTemp = true →
        ∀ (σ : Scope symbol) flags memory replies a b w₁ w₂,
          widestCall .x86_64 body ≤ σ.words →
          l.eval σ ⟨memory, replies, []⟩ = some (a, w₁) → r.eval σ w₁ = some (b, w₂) →
          Transfers σ.symbols symbol code (site.start, ⟨σ.file, flags, ⟨memory, replies, []⟩⟩)
            (op.holds a b) t site.after) := by
  intro symbol
  obtain ⟨S, hrun, hinstrs, -⟩ := exists_of_select hselect
  obtain ⟨site, S₁, S₂, hc, hbefore, hext, hafter, ops, rest, hops, hrest⟩ :=
    exists_jumpSite [exit] hjump hrun
  refine ⟨_, site, hinstrs, ⟨ops, rest, hops, hrest⟩, ?_, ?_, fun _ _ => site.transfers_jump, ?_⟩
  · rintro g post rfl
    rw [hrest, List.head?_append, hops.head?_eq, Option.some_or]
  · obtain ⟨ops', hext', hdecides⟩ := exists_decides hc
    exact hext.operations_eq hext' ▸ hdecides
  · intro hfresh hl hr σ flags memory replies a b w₁ w₂ hwords ha hb
    obtain ⟨_, hfirst⟩ := hbefore
    obtain ⟨_, hlast⟩ := hafter
    have hreserved : S₂.memoryArguments ≤ σ.words :=
      hlast.memoryArguments_le.trans ((memoryArguments_eq_widestCall hrun).trans_le hwords)
    exact site.transfers_of_eval hfresh hfirst.nextTemp_le hc hext hl hr hreserved ha hb

/-- A jump inside an expression compares a constant with what a call returns, and goes on to its
second label, which follows. -/
theorem Stm.cjump_transfers_in_expression :
    let body : List Stm :=
      [.exp (.eseq (.seq (.cjump .ult (.const 5) (.call (.name "g") []) "L1" "L2") (.label "L2"))
        (.const 0)), .label "L1"]
    let frame := Frame.new "f" 0 .x86_64
    let σ : Scope frame.sizeSymbol := ⟨fun _ => 4096, fun _ => 64, 0, by decide⟩
    let w : World := ⟨fun _ => 0, fun _ => ⟨3, fun _ => 0, fun _ => 0⟩, []⟩
    ∃ selected n' code, ∃ site : JumpSite code "L1" "L2",
      frame.select .x86_64 body { nextTemp := 100 } = (.ok selected, n') ∧
      selected.instrs = code.map (instr (.x86_64 frame.sizeSymbol)) ∧
      ∃ rest q, Reaches σ.symbols frame.sizeSymbol code (site.start, ⟨σ.file, none, w⟩)
        (.label "L2" :: rest, q) := by
  intro body frame σ w
  obtain ⟨selected, n', hselect⟩ : ∃ selected n',
      frame.select .x86_64 body { nextTemp := 100 } = (.ok selected, n') := ⟨_, _, rfl⟩
  have hjump : [] ++ .cjump .ult (.const 5) (.call (.name "g") []) "L1" "L2" :: [.label "L2"] ∈
      Stm.sequences body := by decide +kernel
  obtain ⟨code, site, hinstrs, -, hlabel, -, -, hplain⟩ := Stm.cjump_transfers hselect hjump
  obtain ⟨q, -, hnext⟩ := hplain (by decide) (by decide) (by decide) σ none w.memory w.replies
    5 3 w (w.call 64 []) (by decide) rfl rfl
  obtain ⟨rest, hrest⟩ := List.head?_eq_some_iff.1 (hlabel "L2" [] rfl)
  exact ⟨selected, n', code, site, hselect, hinstrs, rest, q, hrest ▸ hnext (by decide)⟩

/-- Where the first label follows instead, control goes there also if the relation does not hold,
and not to the second label further down. -/
theorem Stm.cjump_misses_label :
    let body : List Stm :=
      [.cjump .lt (.temp ⟨100⟩) (.temp ⟨101⟩) "L1" "L2", .label "L1",
        .move (.temp X86.rax) (.const 1), .label "L2"]
    let frame := Frame.new "f" 0 .x86_64
    let rest : List Operation := [.label "L1", .constant X86.rax 1, .label "L2", .exit]
    let code : List Operation := .compare ⟨100⟩ (.temp ⟨101⟩) :: .branch .lt "L1" "L2" :: rest
    let p : Processor := ⟨fun _ => 0, none, ⟨fun _ => 0, fun _ => ⟨0, fun _ => 0, fun _ => 0⟩, []⟩⟩
    let go := step (fun _ => 0) frame.sizeSymbol code
    (∃ selected n', frame.select .x86_64 body { nextTemp := 102 } = (.ok selected, n') ∧
      selected.instrs = code.map (instr (.x86_64 frame.sizeSymbol))) ∧
    RelOp.lt.holds (p.file ⟨100⟩) (p.file ⟨101⟩) = false ∧
    (∃ q, (go (code, p)).bind go = some (rest, q)) ∧
    seek "L1" code = some rest ∧ seek "L2" code = some [.label "L2", .exit] := by
  intro body frame rest code p go
  refine ⟨⟨_, _, rfl, rfl⟩, by decide, ⟨compared p ⟨100⟩ (.temp ⟨101⟩), ?_⟩, by decide, by decide⟩
  have hcompare : go (code, p) =
      some (.branch .lt "L1" "L2" :: rest, compared p ⟨100⟩ (.temp ⟨101⟩)) :=
    step_of_exec (exec_compare ..)
  rw [hcompare, Option.bind_some]
  exact step_branch_compared_of_not (by decide)

end TreeCompiler
