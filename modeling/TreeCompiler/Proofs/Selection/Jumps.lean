import TreeCompiler.Proofs.ControlFlow
import TreeCompiler.Proofs.Selection.Branches
import TreeCompiler.Proofs.Templates

/-!
# Jumps — where an unconditional jump of a body goes

A jump to an address is selected as operations for the address and a jump through the temp that
holds it; a jump to a name is one instruction, and what is written in it is the first of the labels
where it may land.  Control goes to the address that the tree asks for if that address is computed,
and also if it is a name that leads the labels (`Stm.jump_transfers`).  A name further down the list
is not where the jump goes (`Stm.jump_misses_label`).
-/

namespace TreeCompiler

open Operation Selection

/-- The labels where a jump to an expression may land. -/
def Exp.landings (labels : List Label) : Exp → List Label
  | .name l => if labels = [] then [l] else labels
  | _ => labels

namespace Selection

/-! ## Destinations -/

/-- What a jump instruction goes by. -/
inductive Destination
  | label (l : Label)
  | temp (t : Temp)

namespace Destination

/-- The jump to a destination. -/
def jump (labels : List Label) : Destination → Operation
  | .label _ => .jump labels
  | .temp t => .jumpTo t labels

/-- A jump as it is written with names for temps. -/
def text (names : NameMap) : Destination → String
  | .label l => "jmp " ++ l
  | .temp t => "jmp *" ++ names.lookup t

/-- The address to which a jump goes. -/
def address (symbols : String → Word) (p : Processor) : Destination → Word
  | .label l => symbols l
  | .temp t => p.file t

variable {labels : List Label} {d : Destination}

@[simp] theorem targets_jump (target : Target) (labels : List Label) (d : Destination) :
    ((d.jump labels).instr target).targets = labels := by
  cases d <;> rfl

end Destination

/-- The operations for the address of a jump, and what the jump goes by. -/
inductive Aims (target : Target) (labels : List Label) (ops : List Operation) :
    Exp → Destination → Prop
  | name {l : Label} (hops : ops = []) : Aims target labels ops (.name l) (.label (labels.headD l))
  | address {e : Exp} {t : Temp} (hname : ∀ l, e ≠ .name l) (h : Leaves target ops e (.temp t)) :
      Aims target labels ops e (.temp t)

section Aims

variable {target : Target} {labels : List Label} {ops : List Operation} {e : Exp} {d : Destination}
  {S S' : State}

/-- What is no name is evaluated, and jumped to where it may land. -/
theorem jump_eq (hname : ∀ l, e ≠ .name l) (value : SelectM Temp) :
    jump e labels value = (do let t ← value; emit (.jumpTo t (e.landings labels))) := by
  cases e with
  | name l => exact absurd rfl (hname l)
  | binop | mem | temp | eseq | const | call => rfl

/-- A jump evaluates its address, unless that is a name, and jumps. -/
theorem exists_of_jump (hrun : (jump e labels (e.select target)).run.run S = (.ok (), S')) :
    ∃ ops d, Extends S S' (ops ++ [d.jump (e.landings labels)]) ∧ Aims target labels ops e d := by
  by_cases hname : ∃ l, e = .name l
  · obtain ⟨l, rfl⟩ := hname
    exact ⟨[], .label _, extends_of_emit hrun, .name rfl⟩
  · have hne : ∀ l, e ≠ .name l := fun l heq => hname ⟨l, heq⟩
    rw [jump_eq hne] at hrun
    obtain ⟨t, S₁, ht, hjump⟩ := exists_of_run_bind hrun
    obtain ⟨ops, hext, hleaves⟩ := exists_leaves ht
    exact ⟨ops, .temp t, hext.trans (extends_of_emit hjump), .address hne hleaves⟩

/-- A jump to a name has the name in it exactly if no label comes before it. -/
theorem Aims.eq_label_iff {l : Label} (h : Aims target labels ops (.name l) d) :
    d = .label l ↔ labels = [] ∨ labels.head? = some l := by
  cases h with
  | name =>
      cases labels <;> simp
  | address hname => exact absurd rfl (hname l)

/-- The first label is where a jump to a name may land, too. -/
theorem Aims.getElem?_landings {l : Label} (h : Aims target labels ops e (.label l)) :
    (e.landings labels)[0]? = some l := by
  cases h with
  | name => cases labels <;> rfl

/-- The text of a jump says what it goes by. -/
theorem Aims.fill_jump (h : Aims target labels ops e d) (names : NameMap) :
    ((d.jump (e.landings labels)).instr target).fill names = d.text names := by
  -- jumps are written alike for all machines
  have hinstr : (d.jump (e.landings labels)).instr target =
      (d.jump (e.landings labels)).instr (.x86_64 "") := by cases d <;> rfl
  have hlabel : ((d.jump (e.landings labels)).instr (.x86_64 "")).label? = none := by
    cases d <;> rfl
  have hnames : ((d.jump (e.landings labels)).line "").names = [] := by cases d <;> rfl
  apply String.toList_injective
  rw [hinstr, Instr.toList_fill hlabel, text_instr,
    (Assembly.cut_print (by simp [hnames])).pieces_eq]
  cases d with
  | label l =>
      simp [Destination.jump, Destination.text, line, instr, Assembly.Line.pieces, Assembly.unary,
        Template.literal, Instr.pieceText, Instr.jump, Instr.targets, Instr.jumps?,
        h.getElem?_landings]
  | temp t =>
      simp [Destination.jump, Destination.text, line, instr, Assembly.Line.pieces, Assembly.unary,
        Template.literal, Assembly.Slot.hole, Instr.pieceText, Instr.operandText, Instr.jump,
        Instr.uses]

end Aims

/-! ## Unconditional jumps in code -/

/-- The code from the first definition of a label on. -/
theorem exists_seek {l : Label} {code : List Operation} (h : .label l ∈ code) :
    ∃ j, code[j]? = some (.label l) ∧ seek l code = some (code.drop j) := by
  induction code with
  | nil => exact absurd h List.not_mem_nil
  | cons op rest ih =>
      by_cases hop : op = .label l
      · exact ⟨0, congrArg some hop, if_pos hop⟩
      · obtain ⟨j, hj, hseek⟩ := ih (List.mem_of_ne_of_mem (fun heq => hop heq.symm) h)
        exact ⟨j + 1, hj, (if_neg hop).trans hseek⟩

/-- A label of instructions is one of the operations. -/
theorem label_mem_of_labelsOf {target : Target} {l : Label} {code : List Operation}
    (h : l ∈ FlowGraph.labelsOf (code.map (instr target))) : .label l ∈ code := by
  obtain ⟨i, hi, hlabel⟩ := List.mem_filterMap.1 h
  obtain ⟨op, hop, rfl⟩ := List.mem_map.1 hi
  by_cases hdefines : ∃ l', op = .label l'
  · obtain ⟨l', rfl⟩ := hdefines
    cases hlabel
    exact hop
  · rw [label?_instr target fun l' heq => hdefines ⟨l', heq⟩] at hlabel
    cases hlabel

/-- Where the code for an unconditional jump stands. -/
structure GotoSite (code : List Operation) (labels : List Label) where
  before : List Operation
  operands : List Operation
  destination : Destination
  after : List Operation
  code_eq : code = before ++ (operands ++ destination.jump labels :: after)

namespace GotoSite

variable {code : List Operation} {labels : List Label}

/-- The code from the jump on. -/
def jump (site : GotoSite code labels) : List Operation :=
  site.destination.jump labels :: site.after

/-- The code from the first operation for the address on. -/
def start (site : GotoSite code labels) : List Operation := site.operands ++ site.jump

/-- The number of the jump. -/
def position (site : GotoSite code labels) : Nat := site.before.length + site.operands.length

theorem getElem?_position (site : GotoSite code labels) :
    code[site.position]? = some (site.destination.jump labels) := by
  calc code[site.position]?
      = (site.before ++ (site.operands ++ site.jump))[site.position]? :=
        congrArg (·[_]?) site.code_eq
    _ = site.jump[0]? := by
        rw [position, ← List.append_assoc, List.getElem?_append_right (by simp)]
        simp
    _ = some (site.destination.jump labels) := rfl

/-- The flow graph of the code has an edge from the jump to each label where it may land. -/
theorem exists_edge (site : GotoSite code labels) {target : Target} {flow : FlowGraph} {l : Label}
    (hflow : FlowGraph.build (code.map (instr target)) = .ok flow) (hl : l ∈ labels) :
    ∃ j ∈ flow.succsOf site.position,
      code[j]? = some (.label l) ∧ seek l code = some (code.drop j) := by
  have hsite : (code.map (instr target))[site.position]? =
      some ((site.destination.jump labels).instr target) := by
    rw [List.getElem?_map, site.getElem?_position, Option.map_some]
  have htarget : l ∈ ((site.destination.jump labels).instr target).targets := by
    rwa [Destination.targets_jump]
  obtain ⟨-, hdefined⟩ := FlowGraph.build_isOk_iff.1 ⟨flow, hflow⟩
  obtain ⟨j, hj, hseek⟩ := exists_seek (label_mem_of_labelsOf
    (hdefined _ (List.mem_of_getElem? hsite) l htarget))
  have hlabel : (code.map (instr target))[j]? = some (.ofLabel l) := by
    rw [List.getElem?_map, hj]
    rfl
  exact ⟨j, ((FlowGraph.controlFlow_of_build hflow).succ _ j).2
    ⟨_, hsite, .inr ⟨l, htarget, _, hlabel, rfl⟩⟩, hj, hseek⟩

/-- Control goes to the label with the address that the jump goes by. -/
theorem step_jump (site : GotoSite code labels) {target : Target} {symbol : String}
    {symbols : String → Word} {p : Processor} {l : Label} {ls : List Label} {e : Exp}
    (haims : Aims target ls site.operands e site.destination) (hls : e.landings ls = labels)
    (hl : l ∈ labels) (haddress : site.destination.address symbols p = symbols l)
    (hapart : ∀ l' ∈ labels, symbols l' = symbols l → l' = l) :
    step symbols symbol code (site.jump, p) = goTo? code p l := by
  subst hls
  rw [jump]
  cases hdestination : site.destination with
  | label l₀ =>
      rw [hdestination] at haims haddress
      have hfirst := haims.getElem?_landings
      obtain rfl := hapart l₀ (List.mem_of_getElem? hfirst) haddress
      change ((e.landings ls)[0]?).bind _ = _
      rw [hfirst, Option.bind_some]
  | temp t =>
      -- the search stops at the first label with the address, and no other label has it
      rw [hdestination] at haddress
      change p.file t = symbols l at haddress
      have hfind : (e.landings ls).find? (fun l' => symbols l' = p.file t) = some l := by
        cases h : (e.landings ls).find? (fun l' => symbols l' = p.file t) with
        | none => exact absurd haddress.symm (by simpa using List.find?_eq_none.1 h l hl)
        | some l' =>
            have hvalue : symbols l' = p.file t := by simpa using List.find?_some h
            rw [hapart l' (List.mem_of_find?_eq_some h) (hvalue.trans haddress)]
      change ((e.landings ls).find? _).bind _ = _
      rw [hfind, Option.bind_some]

end GotoSite

/-! ## Unconditional jumps of bodies -/

section Body

variable {labels : List Label} {e : Exp} {S S' : State}

/-- The operations for an unconditional jump stand in one piece. -/
theorem exists_gotoSite {target : Target} {body pre post : List Stm} (last : List Operation)
    (hjump : pre ++ .jump e labels :: post ∈ Stm.sequences body)
    (hrun : (Stm.selectAll target body).run.run S = (.ok (), S')) :
    ∃ (site : GotoSite (S'.operations.toList ++ last) (e.landings labels)) (S₁ S₂ : State),
      Follows S S₁ ∧ (Selection.jump e labels (e.select target)).run.run S₁ = (.ok (), S₂) ∧
      Extends S₁ S₂ (site.operands ++ [site.destination.jump (e.landings labels)]) ∧
      Follows S₂ S' ∧ Aims target labels site.operands e site.destination := by
  obtain ⟨S₁, S₂, S₃, hbefore, hs, hpost, hafter⟩ := exists_piece hjump hrun
  rw [Stm.select] at hs
  obtain ⟨operands, d, hext, haims⟩ := exists_of_jump hs
  obtain ⟨behind, hbehind⟩ := ((covers_statements post).follows hpost).trans hafter
  refine ⟨⟨S₁.operations.toList, operands, d, behind ++ last, ?_⟩, S₁, S₂, hbefore, hs, hext,
    ⟨behind, hbehind⟩, haims⟩
  rw [hbehind.operations, hext.operations]
  simp only [List.append_assoc, List.cons_append, List.nil_append]

/-- Operations for an address without statements leave the value of the tree where the jump goes by
it. -/
theorem exists_address {symbol : String} {k : Nat} {ops : List Operation} {d : Destination}
    {σ : Scope symbol} {flags : Option Flags} {memory : Memory} {replies : Nat → Reply} {v : Word}
    {w : World} (hk : Temp.firstVirtual ≤ k) (hS : k ≤ S.namer.nextTemp) (hplain : e.plain k = true)
    (hrun : (Selection.jump e labels (e.select (.x86_64 symbol))).run.run S = (.ok (), S'))
    (hext : Extends S S' (ops ++ [d.jump (e.landings labels)]))
    (haims : Aims (.x86_64 symbol) labels ops e d)
    (hname : ∀ l, e = .name l → labels = [] ∨ labels.head? = some l)
    (hwords : S'.memoryArguments ≤ σ.words) (hv : e.eval σ ⟨memory, replies, []⟩ = some (v, w)) :
    ∃ q, execAll σ.symbols symbol ops ⟨σ.file, flags, ⟨memory, replies, []⟩⟩ = some q ∧
      d.address σ.symbols q = v := by
  cases haims with
  | @name l hops =>
      subst hops
      obtain ⟨rfl, -⟩ := Prod.mk.inj (Option.some.inj hv)
      have hhead : labels.headD l = l := by
        rcases hname l rfl with rfl | hhead
        · rfl
        · rw [List.headD_eq_head?_getD, hhead, Option.getD_some]
      exact ⟨_, rfl, congrArg σ.symbols hhead⟩
  | @address e t hne _ =>
      -- the operands are those that the evaluation of the address emits, as only the jump is behind
      rw [jump_eq hne] at hrun
      obtain ⟨t', S₁, ht, hjump⟩ := exists_of_run_bind hrun
      obtain ⟨ops', hext'⟩ := (covers_value e).follows ht
      have hjumps := extends_of_emit hjump
      obtain ⟨rfl, hlast⟩ := List.append_inj' (hext.operations_eq (hext'.trans hjumps)) rfl
      cases hlast
      obtain ⟨-, hexec⟩ := (evaluates_select hk e hplain).of_run hS ht hext'
      obtain ⟨q, hq, -, -, hvalue⟩ := hexec σ _ _ v w (hjumps.memoryArguments_le.trans hwords)
        (.start k σ flags memory replies) hv
      exact ⟨q, hq, hvalue⟩

end Body

end Selection

/-! ## Runs -/

/-- Where selection for a body succeeds, the code for each `JUMP` in it, however deep in the tree,
is an evaluation of the address, which a name does not need, and one jump instruction.  Its text
says what it goes by: the first label where it may land if the address is a name, which is that name
if no other comes before it, and else the temp in which the evaluation left the address.  The flow
graph has an edge to each label where the jump may land, and that is where control goes if the label
has the address that the jump goes by.  Without statements in it a computed address is the value of
the tree, and so is the address of a name that leads the labels. -/
theorem Stm.jump_transfers {m : Machine} {name : Label} {locals : Int} {body : List Stm}
    {n n' : Namer} {selected : Selected} {pre post : List Stm} {e : Exp} {labels : List Label}
    (hselect : (Frame.new name locals m).select m body n = (.ok selected, n'))
    (hjump : pre ++ .jump e labels :: post ∈ Stm.sequences body) :
    let target : Target := ⟨m, (Frame.new name locals m).sizeSymbol⟩
    let landings := e.landings labels
    ∃ (code : List Operation) (site : GotoSite code landings),
      selected.instrs = code.map (instr target) ∧
      Aims target labels site.operands e site.destination ∧
      (∀ l, e = .name l → (site.destination = .label l ↔ labels = [] ∨ labels.head? = some l)) ∧
      (∀ names, ((site.destination.jump landings).instr target).fill names =
        site.destination.text names) ∧
      (∀ flow, FlowGraph.build selected.instrs = .ok flow → ∀ l ∈ landings,
        ∃ j ∈ flow.succsOf site.position,
          code[j]? = some (.label l) ∧ seek l code = some (code.drop j)) ∧
      (∀ symbols p, ∀ l ∈ landings, site.destination.address symbols p = symbols l →
        (∀ l' ∈ landings, symbols l' = symbols l → l' = l) →
        step symbols target.sizeSymbol code (site.jump, p) = goTo? code p l) ∧
      (m = .x86_64 → Temp.firstVirtual ≤ n.nextTemp → e.plain n.nextTemp = true →
        (∀ l, e = .name l → labels = [] ∨ labels.head? = some l) →
        ∀ (σ : Scope target.sizeSymbol) flags memory replies v w,
          widestCall .x86_64 body ≤ σ.words →
          e.eval σ ⟨memory, replies, []⟩ = some (v, w) →
          ∃ q, Reaches σ.symbols target.sizeSymbol code
              (site.start, ⟨σ.file, flags, ⟨memory, replies, []⟩⟩) (site.jump, q) ∧
            site.destination.address σ.symbols q = v) := by
  intro target landings
  obtain ⟨S, hrun, hinstrs, -⟩ := exists_of_select hselect
  obtain ⟨site, S₁, S₂, ⟨_, hbefore⟩, hsite, hext, ⟨_, hafter⟩, haims⟩ :=
    exists_gotoSite [exit] hjump hrun
  refine ⟨_, site, hinstrs, haims, ?_, haims.fill_jump, ?_, ?_, ?_⟩
  · rintro l rfl
    exact haims.eq_label_iff
  · intro flow hflow l hl
    exact site.exists_edge (hinstrs ▸ hflow) hl
  · intro symbols p l hl haddress hapart
    exact site.step_jump haims rfl hl haddress hapart
  · rintro rfl hfresh hplain hname σ flags memory replies v w hwords hv
    have hreserved : S₂.memoryArguments ≤ σ.words :=
      hafter.memoryArguments_le.trans ((memoryArguments_eq_widestCall hrun).trans_le hwords)
    obtain ⟨q, hq, haddress⟩ :=
      exists_address hfresh hbefore.nextTemp_le hplain hsite hext haims hname hreserved hv
    exact ⟨q, reaches_execAll hq, haddress⟩

/-- A jump through a table of two labels that lie eight bytes apart goes to the second one, along an
edge of the flow graph. -/
theorem Stm.jump_transfers_table :
    let body : List Stm := [.jump (.binop .plus (.temp ⟨100⟩) (.const 8)) ["L1", "L2"], .label "L1",
      .move (.temp X86.rax) (.const 1), .label "L2"]
    let frame := Frame.new "f" 0 .x86_64
    let σ : Scope frame.sizeSymbol :=
      ⟨fun _ => 4096, fun l => if l = "L2" then 4104 else 4096, 0, by decide⟩
    let w : World := ⟨fun _ => 0, fun _ => ⟨0, fun _ => 0, fun _ => 0⟩, []⟩
    ∃ selected n' code, ∃ site : GotoSite code ["L1", "L2"], ∃ flow j q,
      frame.select .x86_64 body { nextTemp := 101 } = (.ok selected, n') ∧
      selected.instrs = code.map (instr (.x86_64 frame.sizeSymbol)) ∧
      FlowGraph.build selected.instrs = .ok flow ∧ j ∈ flow.succsOf site.position ∧
      code[j]? = some (.label "L2") ∧
      Reaches σ.symbols frame.sizeSymbol code (site.start, ⟨σ.file, none, w⟩) (code.drop j, q) := by
  intro body frame σ w
  obtain ⟨selected, n', hselect⟩ : ∃ selected n',
      frame.select .x86_64 body { nextTemp := 101 } = (.ok selected, n') := ⟨_, _, rfl⟩
  obtain ⟨flow, hflow⟩ : ∃ flow, FlowGraph.build selected.instrs = .ok flow := by
    obtain rfl := Except.ok.inj (Prod.mk.inj hselect).1
    exact ⟨_, rfl⟩
  have hjump : [] ++ .jump (.binop .plus (.temp ⟨100⟩) (.const 8)) ["L1", "L2"] ::
      [.label "L1", .move (.temp X86.rax) (.const 1), .label "L2"] ∈ Stm.sequences body :=
    List.mem_cons_self
  obtain ⟨code, site, hinstrs, -, -, -, hedge, hstep, hplain⟩ := Stm.jump_transfers hselect hjump
  obtain ⟨q, hq, haddress⟩ := hplain rfl (by decide) (by decide) nofun σ none w.memory w.replies
    4104 w (by decide) rfl
  obtain ⟨j, hj, hlabel, hseek⟩ := hedge flow hflow "L2" (by decide)
  have hgo := hstep σ.symbols q "L2" (by decide) (haddress.trans rfl) (by decide)
  rw [goTo?, hseek, Option.map_some] at hgo
  exact ⟨selected, n', code, site, flow, j, q, hselect, hinstrs, hflow, hj, hlabel, hq.tail hgo⟩

/-- A jump to the second of its labels is written with the first one, and goes there. -/
theorem Stm.jump_misses_label :
    let s : Stm := .jump (.name "L2") ["L1", "L2"]
    let body : List Stm := [s, .label "L1", .move (.temp X86.rax) (.const 1), .label "L2"]
    let frame := Frame.new "f" 0 .x86_64
    let rest : List Operation := [.label "L1", .constant X86.rax 1, .label "L2", .exit]
    let code : List Operation := .jump ["L1", "L2"] :: rest
    (∃ selected n', frame.select .x86_64 body { nextTemp := 100 } = (.ok selected, n') ∧
      selected.instrs = code.map (instr (.x86_64 frame.sizeSymbol))) ∧
    (∀ names, ((Operation.jump ["L1", "L2"]).instr (.x86_64 frame.sizeSymbol)).fill names =
      "jmp L1") ∧
    (∀ (σ : Scope frame.sizeSymbol) w, (Exp.name "L2").eval σ w = some (σ.symbols "L2", w)) ∧
    (∀ symbols p, step symbols frame.sizeSymbol code (code, p) = some (rest, p)) ∧
    seek "L2" code = some [.label "L2", .exit] := by
  intro s body frame rest code
  have haims : Aims (.x86_64 frame.sizeSymbol) ["L1", "L2"] [] (.name "L2") (.label "L1") :=
    .name rfl
  exact ⟨⟨_, _, rfl, rfl⟩, haims.fill_jump, fun _ _ => rfl, fun _ _ => rfl, by decide⟩

end TreeCompiler
