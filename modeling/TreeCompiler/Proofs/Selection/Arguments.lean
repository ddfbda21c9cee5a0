import TreeCompiler.Proofs.Selection.Control
import TreeCompiler.Proofs.Selection.Labels
import TreeCompiler.Proofs.Selection.Room
import TreeCompiler.Proofs.Selection.Value

/-!
# Arguments — what a call finds when it is carried out

The code for a call evaluates the callee, then the arguments from left to right, and then passes
them.  By the time control is at the call, each argument is where the calling convention has it,
whatever the later arguments called and stored on the way (`Stm.call_receives`): values wait in
temps of their own until the last of them is there.
-/

namespace TreeCompiler

open Operation X86

/-! ## Plain trees define no labels -/

section Labels

variable {k : Nat}

mutual

theorem Exp.definedLabels_of_plain : (e : Exp) → e.plain k = true → e.definedLabels = []
  | .binop _ l r, h => by
      rw [Exp.plain, Bool.and_eq_true] at h
      rw [Exp.definedLabels, l.definedLabels_of_plain h.1, r.definedLabels_of_plain h.2,
        List.append_nil]
  | .mem e, h => e.definedLabels_of_plain h
  | .temp _, _ => rfl
  | .eseq _ _, h => by cases h
  | .name _, _ => rfl
  | .const _, _ => rfl
  | .call f args, h => by
      rw [Exp.plain, Bool.and_eq_true] at h
      rw [Exp.definedLabels, f.definedLabels_of_plain h.1, Exp.definedLabelsAll_of_plain args h.2,
        List.append_nil]

theorem Exp.definedLabelsAll_of_plain : (es : List Exp) → Exp.plainAll k es = true →
    Exp.definedLabelsAll es = []
  | [], _ => rfl
  | e :: es, h => by
      rw [Exp.plainAll, Bool.and_eq_true] at h
      rw [Exp.definedLabelsAll, e.definedLabels_of_plain h.1, Exp.definedLabelsAll_of_plain es h.2,
        List.append_nil]

end

end Labels

namespace Selection

/-! ## Calls in code -/

/-- Where the code for a call stands. -/
structure CallSite (code : List Operation) where
  before : List Operation
  /-- Evaluates callee and arguments and passes them. -/
  evaluation : List Operation
  callee : Callee
  /-- The registers in which arguments are passed. -/
  registers : List Temp
  after : List Operation
  code_eq : code = before ++ (evaluation ++ .call callee registers :: after)

namespace CallSite

variable {code : List Operation}

/-- The code from the call on. -/
def call (site : CallSite code) : List Operation := .call site.callee site.registers :: site.after

/-- The code from the first operation for the callee on. -/
def start (site : CallSite code) : List Operation := site.evaluation ++ site.call

/-- The call as an instruction. -/
def instr (site : CallSite code) (target : Target) : Instr :=
  (Operation.call site.callee site.registers).instr target

end CallSite

/-- What a call defines. -/
theorem defs_call (target : Target) (f : Callee) (registers : List Temp) :
    ((Operation.call f registers).instr target).defs = target.machine.callDefs := by
  cases f <;> rfl

theorem mem_callDefs {m : Machine} {t : Temp} :
    t ∈ m.callDefs ↔ t ∈ m.roles.callerSaves ∨ t = m.roles.returnValue := by
  unfold Machine.callDefs
  split
  · exact ⟨.inl, fun h => h.elim id fun heq => heq ▸ ‹_›⟩
  · rw [List.mem_append, List.mem_singleton]

/-- A label is called directly, and nothing else is. -/
theorem direct_iff_of_callee {target : Target} {f : Exp} {x : SelectM Temp} {g : Callee}
    {S S' : State} (hrun : (callee target f x).run.run S = (.ok g, S')) (l : Label) :
    g = .direct l ↔ f = .name l := by
  unfold callee at hrun
  split at hrun
  · cases hrun
    exact ⟨fun h => by cases h; rfl, fun h => by cases h; rfl⟩
  · rename_i hname
    rw [map_eq_pure_bind] at hrun
    obtain ⟨t, S₁, -, ht⟩ := exists_of_run_bind hrun
    cases ht
    exact iff_of_false Callee.noConfusion (hname l)

section Site

variable {target : Target} {f : Exp} {args : List Exp} {S S' : State}

/-- The code of each call of a body stands in one piece. -/
theorem exists_callSite {body : List Stm} (last : List Operation)
    (hcall : (f, args) ∈ body.flatMap Stm.calls)
    (hrun : (Stm.selectAll target body).run.run S = (.ok (), S')) :
    ∃ (site : CallSite (S'.operations.toList ++ last)) (S₁ S₂ : State),
      Follows S S₁ ∧ (call target (callee target f (f.select target))
        (Exp.selectAll target args)).run.run S₁ = (.ok (), S₂) ∧ Follows S₂ S' ∧
      Extends S₁ S₂ (site.evaluation ++ [.call site.callee site.registers]) := by
  obtain ⟨S₁, S₂, hbefore, hselect, behind, hbehind⟩ := exists_call hcall hrun
  obtain ⟨g, values, S₃, S₄, hg, hvalues, hpassing, -⟩ := exists_of_call hselect
  obtain ⟨first, hfirst⟩ := (covers_callee (covers_value f)).follows hg
  obtain ⟨second, hsecond⟩ := (covers_values args).follows hvalues
  let registers := target.machine.roles.arguments
  have hext : Extends S₁ S₂ ((first ++ (second ++ (stores target 0 (values.drop registers.length) ++
      moves (values.zip registers)))) ++ [.call g ((values.zip registers).map (·.2))]) := by
    simpa only [passing, List.append_assoc] using (hfirst.trans hsecond).trans hpassing
  refine ⟨⟨S₁.operations.toList, _, g, _, behind ++ last, ?_⟩, S₁, S₂, hbefore, hselect,
    ⟨behind, hbehind⟩, hext⟩
  rw [hbehind.operations, hext.operations]
  simp only [List.append_assoc, List.cons_append, List.nil_append]

variable {ops : List Operation} {g : Callee} {registers : List Temp}

/-- The operations before a call evaluate the callee, then the arguments, and then pass these. -/
theorem exists_of_extends_call
    (hrun : (call target (callee target f (f.select target))
      (Exp.selectAll target args)).run.run S = (.ok (), S'))
    (hext : Extends S S' (ops ++ [.call g registers])) :
    ∃ (values : List Temp) (first second : List Operation) (S₁ S₂ : State),
      (callee target f (f.select target)).run.run S = (.ok g, S₁) ∧ Extends S S₁ first ∧
      (Exp.selectAll target args).run.run S₁ = (.ok values, S₂) ∧ Extends S₁ S₂ second ∧
      S₂.memoryArguments ≤ S'.memoryArguments ∧
      values.length - target.machine.roles.arguments.length ≤ S'.memoryArguments ∧
      registers = (values.zip target.machine.roles.arguments).map (·.2) ∧
      ops = first ++ (second ++
        (stores target 0 (values.drop target.machine.roles.arguments.length) ++
          moves (values.zip target.machine.roles.arguments))) := by
  obtain ⟨g', values, S₁, S₂, hg, hvalues, hpassing, hroom⟩ := exists_of_call hrun
  obtain ⟨first, hfirst⟩ := (covers_callee (covers_value f)).follows hg
  obtain ⟨second, hsecond⟩ := (covers_values args).follows hvalues
  have hops := hext.operations_eq ((hfirst.trans hsecond).trans hpassing)
  rw [passing, ← List.append_assoc, ← List.append_assoc] at hops
  obtain ⟨rfl, hlast⟩ := List.append_inj' hops rfl
  cases hlast
  refine ⟨values, first, second, S₁, S₂, hg, hfirst, hvalues, hsecond,
    hpassing.memoryArguments_le, hroom, rfl, ?_⟩
  simp only [List.append_assoc]

/-- A call uses the registers of as many arguments as there are. -/
theorem registers_eq (hrun : (call target (callee target f (f.select target))
      (Exp.selectAll target args)).run.run S = (.ok (), S'))
    (hext : Extends S S' (ops ++ [.call g registers])) :
    registers = target.machine.roles.arguments.take args.length := by
  obtain ⟨values, -, -, S₁, S₂, -, -, hvalues, -, -, -, rfl, -⟩ :=
    exists_of_extends_call hrun hext
  rw [← length_of_selectAll hvalues, List.zip_eq_zip_take_min, List.map_snd_zip (by simp),
    List.take_eq_take_iff]
  omega

/-- No label is defined in the code for a call without statements. -/
theorem label?_of_call {k : Nat} (hf : f.plain k = true) (hargs : Exp.plainAll k args = true)
    (hrun : (call target (callee target f (f.select target))
      (Exp.selectAll target args)).run.run S = (.ok (), S'))
    (hext : Extends S S' (ops ++ [.call g registers])) :
    ∀ op ∈ ops, (op.instr target).label? = none := by
  obtain ⟨-, ⟨ops', hops, hmarked⟩, -⟩ :=
    (yields_call (yields_value f) (yields_values args)).run hrun
  obtain rfl : ops' = ops ++ [.call g registers] :=
    List.append_cancel_left (hops.symm.trans hext.operations)
  have hlabels := hmarked.labels
  rw [label?_callMarks f _ _ _ (by rintro l rfl; rfl), f.label?_marks, Exp.label?_marksAll,
    f.definedLabels_of_plain hf, Exp.definedLabelsAll_of_plain args hargs] at hlabels
  intro op hop
  exact List.filterMap_eq_nil_iff.1 hlabels _
    (List.mem_map_of_mem (List.mem_append_left _ hop))

end Site

/-! ## Values at a call -/

section Values

variable {symbol : String}

/-- Callee and arguments are where a call has to find them. -/
structure Receives (σ : Scope symbol) (q : Processor) (f : Callee) (callee : Word)
    (arguments : List Word) : Prop where
  direct : ∀ l, f = .direct l → σ.symbols l = callee
  indirect : ∀ t, f = .indirect t → q.file t = callee
  registers : ∀ (i : Nat) r v, argumentRegisters[i]? = some r → arguments[i]? = some v →
    q.file r = v
  memory : ∀ (i : Nat) v, arguments[i + 6]? = some v →
    q.world.memory.load (q.file rsp + BitVec.ofNat 64 (8 * i)) = v

theorem Receives.of_passes {σ : Scope symbol} {n : Nat} {p q : Processor} {f : Callee}
    {arguments : List Word} (hbase : p.file rsp = σ.file rsp) (hf : Result.lasts n f)
    (hpasses : Passes σ n p q arguments) :
    Receives σ q f (Result.value σ p f) arguments where
  direct := by
    rintro l rfl
    rfl
  indirect := by
    rintro t rfl
    exact hpasses.keeps t (.inr hf)
  registers i r v hr hv := by
    have hlt : i < 6 := (List.getElem?_eq_some_iff.1 hr).1
    have htake : (arguments.take 6)[i]? = some v := by rw [List.getElem?_take_of_lt hlt, hv]
    obtain ⟨others, hothers⟩ := hpasses.registers
    have hfile : (argumentRegisters.map q.file)[i]? = some v := by
      rw [← hothers, List.getElem?_append_left (List.getElem?_eq_some_iff.1 htake).1, htake]
    rw [List.getElem?_map, hr] at hfile
    exact Option.some.inj hfile
  memory i v hv := by
    rw [hpasses.keeps rsp (.inl rfl), hbase]
    exact hpasses.area i v hv

/-- Without statements in callee and arguments, the operations before a call put the values of both
where the call finds them. -/
theorem exists_receives {k : Nat} {S S' : State} {f : Exp} {args : List Exp}
    {ops : List Operation} {g : Callee} {registers : List Temp} {σ : Scope symbol}
    {flags : Option Flags} {memory : Memory} {replies : Nat → Reply} {v : Word} {vs : List Word}
    {w₁ w₂ : World} (hk : Temp.firstVirtual ≤ k) (hS : k ≤ S.namer.nextTemp)
    (hf : f.plain k = true) (hargs : Exp.plainAll k args = true)
    (hrun : (call (.x86_64 symbol) (callee (.x86_64 symbol) f (f.select (.x86_64 symbol)))
      (Exp.selectAll (.x86_64 symbol) args)).run.run S = (.ok (), S'))
    (hext : Extends S S' (ops ++ [.call g registers])) (hwords : S'.memoryArguments ≤ σ.words)
    (hv : f.eval σ ⟨memory, replies, []⟩ = some (v, w₁))
    (hvs : Exp.evalAll σ args w₁ = some (vs, w₂)) :
    ∃ q, execAll σ.symbols symbol ops ⟨σ.file, flags, ⟨memory, replies, []⟩⟩ = some q ∧
      Receives σ q g v vs := by
  obtain ⟨values, first, second, S₁, S₂, hg, hfirst, hvalues, hsecond, hle, hroom, rfl, rfl⟩ :=
    exists_of_extends_call hrun hext
  obtain ⟨hglasts, hexec⟩ :=
    (evaluates_callee (evaluates_select hk f hf)).of_run hS hg hfirst
  obtain ⟨hlasts, hexec'⟩ :=
    (evaluates_selectAll hk args hargs).of_run (hS.trans hfirst.nextTemp_le) hvalues hsecond
  obtain ⟨p₁, hp₁, -, hagrees₁, hcallee⟩ := hexec σ _ _ v w₁
    ((hsecond.memoryArguments_le.trans hle).trans hwords) (.start k σ flags memory replies) hv
  obtain ⟨p₂, hp₂, hkeeps, hagrees₂, harguments⟩ :=
    hexec' σ p₁ w₁ vs w₂ (hle.trans hwords) hagrees₁ hvs
  have hbase : p₂.file rsp = σ.file rsp := hagrees₂.file rsp (.inl rfl)
  obtain ⟨q, hq, hpasses⟩ := execAll_passing hlasts hbase (hroom.trans hwords)
  refine ⟨q, (execAll_append hp₁).trans ((execAll_append hp₂).trans hq), ?_⟩
  -- the callee was evaluated first and its temp outlives the arguments
  have hvalue : Result.value σ p₂ g = v := (Result.value_eq hglasts hkeeps).trans hcallee
  exact hvalue ▸ .of_passes hbase (Result.lasts_mono hglasts hsecond.nextTemp_le)
    (harguments ▸ hpasses)

end Values

end Selection

/-! ## Runs -/

open Selection

/-- Where selection for a body succeeds, the code for each call in it, however deep in the tree, is
an evaluation of callee and arguments and one call instruction, which uses the argument registers
that carry values and the temp of an indirect callee, and defines all that a call may change.  For a
callee and arguments without statements no jump leads into the middle of this code, and when control
comes from its beginning to the call the first six values are in the argument registers, the others
in the words from the stack pointer on, and the callee is the one that was evaluated.  There is a
word for each argument that the widest call passes in memory, and the words are as many as a
displacement reaches (`Scope.words_le`): stores to farther ones cannot be encoded. -/
theorem Stm.call_receives {name : Label} {locals : Int} {body : List Stm} {n n' : Namer}
    {selected : Selected} {f : Exp} {args : List Exp}
    (hselect : (Frame.new name locals .x86_64).select .x86_64 body n = (.ok selected, n'))
    (hcall : (f, args) ∈ body.flatMap Stm.calls) (hfresh : Temp.firstVirtual ≤ n.nextTemp)
    (hf : f.plain n.nextTemp = true) (hargs : Exp.plainAll n.nextTemp args = true) :
    let target : Target := .x86_64 (Frame.new name locals .x86_64).sizeSymbol
    ∃ (code : List Operation) (site : CallSite code),
      selected.instrs = code.map (Operation.instr target) ∧
      (∀ l, site.callee = .direct l ↔ f = .name l) ∧
      (site.instr target).uses =
        site.callee.temp?.toList ++ argumentRegisters.take args.length ∧
      (∀ t, t ∈ (site.instr target).defs ↔ t ∈ Machine.x86_64.roles.callerSaves ∨
        t = Machine.x86_64.roles.returnValue) ∧
      (∀ op ∈ site.evaluation, (op.instr target).label? = none) ∧
      ∀ (σ : Scope target.sizeSymbol) flags memory replies v vs w₁ w₂,
        widestCall .x86_64 body ≤ σ.words →
        f.eval σ ⟨memory, replies, []⟩ = some (v, w₁) → Exp.evalAll σ args w₁ = some (vs, w₂) →
        ∃ q, Reaches σ.symbols target.sizeSymbol code
            (site.start, ⟨σ.file, flags, ⟨memory, replies, []⟩⟩) (site.call, q) ∧
          Receives σ q site.callee v vs := by
  intro target
  obtain ⟨S, hrun, hinstrs, -⟩ := exists_of_select hselect
  obtain ⟨site, S₁, S₂, ⟨_, hbefore⟩, hsite, ⟨_, hafter⟩, hext⟩ :=
    exists_callSite [exit] hcall hrun
  obtain ⟨_, _, _, _, _, hcallee, -⟩ := exists_of_extends_call hsite hext
  refine ⟨_, site, hinstrs, direct_iff_of_callee hcallee, ?_, ?_,
    label?_of_call hf hargs hsite hext, ?_⟩
  · rw [CallSite.instr, uses_call, registers_eq hsite hext]
    rfl
  · intro t
    rw [CallSite.instr, defs_call]
    exact mem_callDefs
  · intro σ flags memory replies v vs w₁ w₂ hwords hv hvs
    have hreserved : S₂.memoryArguments ≤ σ.words :=
      hafter.memoryArguments_le.trans ((memoryArguments_eq_widestCall hrun).trans_le hwords)
    obtain ⟨q, hq, hreceives⟩ :=
      exists_receives hfresh hbefore.nextTemp_le hf hargs hsite hext hreserved hv hvs
    exact ⟨q, reaches_execAll hq, hreceives⟩

/-- An indirect call with two arguments in memory, the first of all being the value of another call
that itself passes one argument in memory. -/
theorem Stm.call_receives_nested :
    let args : List Exp := [.call (.name "g")
      [.const 11, .const 12, .const 13, .const 14, .const 15,
      .const 16, .const 17], .const 2, .const 3, .const 4, .const 5, .const 6, .const 7, .const 8]
    let body : List Stm := [.exp (.call (.temp ⟨100⟩) args)]
    let frame := Frame.new "f" 0 .x86_64
    let σ : Scope frame.sizeSymbol :=
      ⟨fun t => if t = rsp then 4096 else 64, fun _ => 0, 2, by decide⟩
    let w : World := ⟨fun _ => 0, fun _ => ⟨1, fun _ => 255, fun _ => 9⟩, []⟩
    ∃ selected n' code, ∃ site : CallSite code, ∃ t q,
      frame.select .x86_64 body { nextTemp := 101 } = (.ok selected, n') ∧
      selected.instrs = code.map (Operation.instr (.x86_64 frame.sizeSymbol)) ∧
      (site.instr (.x86_64 frame.sizeSymbol)).uses = t :: argumentRegisters ∧
      Reaches σ.symbols frame.sizeSymbol code (site.start, ⟨σ.file, none, w⟩) (site.call, q) ∧
      q.file t = 64 ∧ argumentRegisters.map q.file = [1, 2, 3, 4, 5, 6] ∧
      q.world.memory.load (q.file rsp) = 7 ∧ q.world.memory.load (q.file rsp + 8) = 8 := by
  intro args body frame σ w
  have hok : (frame.select .x86_64 body { nextTemp := 101 }).1.isOk = true := by decide +kernel
  rcases hselect : frame.select .x86_64 body { nextTemp := 101 } with ⟨e | selected, n'⟩
  · rw [hselect] at hok
    cases hok
  have hcall : (.temp ⟨100⟩, args) ∈ body.flatMap Stm.calls := List.mem_cons_self
  obtain ⟨code, site, hinstrs, hdirect, huses, -, -, hreceives⟩ :=
    Stm.call_receives hselect hcall (by decide) (by decide) (by decide)
  obtain ⟨w₂, hvs⟩ : ∃ w₂, Exp.evalAll σ args w = some ([1, 2, 3, 4, 5, 6, 7, 8], w₂) := ⟨_, rfl⟩
  obtain ⟨q, hq, h⟩ := hreceives σ none w.memory w.replies 64 _ w w₂ (by decide) rfl hvs
  rcases hsite : site.callee with l | t
  · exact absurd ((hdirect l).1 hsite) nofun
  · refine ⟨selected, n', code, site, t, q, rfl, hinstrs, ?_, hq, h.indirect t hsite, ?_,
      by simpa using h.memory 0 7 rfl, by simpa using h.memory 1 8 rfl⟩
    · rw [huses, hsite]
      rfl
    · simp only [argumentRegisters, List.map_cons, List.map_nil, h.registers 0 rdi 1 rfl rfl,
        h.registers 1 rsi 2 rfl rfl, h.registers 2 rdx 3 rfl rfl, h.registers 3 rcx 4 rfl rfl,
        h.registers 4 r8 5 rfl rfl, h.registers 5 r9 6 rfl rfl]

end TreeCompiler
