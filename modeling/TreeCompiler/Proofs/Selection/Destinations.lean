import TreeCompiler.Machine.TwoRegisters
import TreeCompiler.Proofs.Selection.Room

/-!
# Destinations — when selection fails, and what it leaves of the frame

Selection comes to every subtree of a body, since the operands that a tile folds away are constants,
labels and the frame pointer, which hold no move.  So it stops at the first move, in its order,
whose destination is no place (`stops_statements`), and there is one as soon as some move of the
body has such a destination (`Stm.misses_eq_nil`).  Where it succeeds, it has seen every call and
made room for the widest (`memoryArguments_eq_widestCall`).
-/

namespace TreeCompiler

/-! ## Moves of a tree -/

/-- The destination of a move, behind the statements that are carried out first. -/
def Exp.bare : Exp → Exp
  | .eseq _ d => d.bare
  | d => d

/-- What a move can write to: a temp or memory. -/
def Exp.isPlace : Exp → Bool
  | .temp _ => true
  | .mem _ => true
  | _ => false

mutual

/-- The moves inside an expression, however deep: destination and source. -/
def Exp.moves : Exp → List (Exp × Exp)
  | .binop _ l r => l.moves ++ r.moves
  | .mem e => e.moves
  | .temp _ => []
  | .eseq s e => s.moves ++ e.moves
  | .name _ => []
  | .const _ => []
  | .call f args => f.moves ++ Exp.movesAll args

def Exp.movesAll : List Exp → List (Exp × Exp)
  | [] => []
  | e :: es => e.moves ++ Exp.movesAll es

def Stm.moves : Stm → List (Exp × Exp)
  | .seq a b => a.moves ++ b.moves
  | .label _ => []
  | .jump e _ => e.moves
  | .cjump _ l r _ _ => l.moves ++ r.moves
  | .move d s => (d, s) :: (d.moves ++ s.moves)
  | .exp e => e.moves

end

/-! ## Faults -/

mutual

/-- The destinations that are no places, in the order in which selection comes to them. -/
def Exp.faults : Exp → List Exp
  | .binop _ l r => l.faults ++ r.faults
  | .mem a => a.faults
  | .temp _ => []
  | .eseq s e => s.faults ++ e.faults
  | .name _ => []
  | .const _ => []
  | .call f args => f.faults ++ Exp.faultsAll args

def Exp.faultsAll : List Exp → List Exp
  | [] => []
  | e :: es => e.faults ++ Exp.faultsAll es

/-- The faults of an expression as the destination of a move. -/
def Exp.aimFaults : Exp → List Exp
  | .mem a => a.faults
  | .temp _ => []
  | .eseq s d => s.faults ++ d.aimFaults
  | d => [d]

def Stm.faults : Stm → List Exp
  | .seq a b => a.faults ++ b.faults
  | .label _ => []
  | .jump e _ => e.faults
  | .cjump _ l r _ _ => l.faults ++ r.faults
  | .move d s => d.aimFaults ++ s.faults
  | .exp e => e.faults

end

/-- The destination of a move, if it is no place. -/
def Exp.miss (d : Exp) : List Exp := if d.bare.isPlace then [] else [d.bare]

/-- The destinations of moves that are no places. -/
def Exp.misses (moves : List (Exp × Exp)) : List Exp := moves.flatMap fun p => p.1.miss

open Exp (misses)

theorem Exp.misses_append (ps qs : List (Exp × Exp)) : misses (ps ++ qs) = misses ps ++ misses qs :=
  List.flatMap_append

theorem Exp.misses_cons (d s : Exp) (ps : List (Exp × Exp)) :
    misses ((d, s) :: ps) = d.miss ++ misses ps := List.flatMap_cons

theorem Exp.mem_misses {ps : List (Exp × Exp)} {x : Exp} :
    x ∈ misses ps ↔ ∃ d s, (d, s) ∈ ps ∧ d.bare.isPlace = false ∧ x = d.bare := by
  have hmiss : ∀ d : Exp, x ∈ d.miss ↔ d.bare.isPlace = false ∧ x = d.bare := fun d => by
    unfold Exp.miss
    split <;> simp_all
  simp only [misses, List.mem_flatMap, hmiss, Prod.exists]

theorem append_subset_misses {as bs : List Exp} {ps qs : List (Exp × Exp)} (h : as ⊆ misses ps)
    (h' : bs ⊆ misses qs) : as ++ bs ⊆ misses (ps ++ qs) :=
  Exp.misses_append ps qs ▸ append_subset_append h h'

mutual

/-- Selection stops only at destinations that are no places. -/
theorem Exp.faults_subset : ∀ e : Exp, e.faults ⊆ misses e.moves
  | .binop _ l r => append_subset_misses l.faults_subset r.faults_subset
  | .mem a => a.faults_subset
  | .temp _ => List.nil_subset _
  | .eseq s e => append_subset_misses s.faults_subset e.faults_subset
  | .name _ => List.nil_subset _
  | .const _ => List.nil_subset _
  | .call f args => append_subset_misses f.faults_subset (Exp.faultsAll_subset args)

theorem Exp.faultsAll_subset : ∀ es : List Exp, Exp.faultsAll es ⊆ misses (Exp.movesAll es)
  | [] => List.nil_subset _
  | e :: es => append_subset_misses e.faults_subset (Exp.faultsAll_subset es)

theorem Exp.aimFaults_subset : ∀ d : Exp, d.aimFaults ⊆ d.miss ++ misses d.moves
  | .mem a => a.faults_subset
  | .temp _ => List.nil_subset _
  | .eseq s d => by
      rw [Exp.aimFaults, Exp.moves, Exp.misses_append]
      refine List.append_subset.2 ⟨fun x hx => ?_, fun x hx => ?_⟩
      · exact List.mem_append_right _ (List.mem_append_left _ (s.faults_subset hx))
      · rcases List.mem_append.1 (d.aimFaults_subset hx) with hx | hx
        · exact List.mem_append_left _ hx
        · exact List.mem_append_right _ (List.mem_append_right _ hx)
  | .binop .. | .name _ | .const _ | .call .. => List.subset_append_left _ _

theorem Stm.faults_subset : ∀ s : Stm, s.faults ⊆ misses s.moves
  | .seq a b => append_subset_misses a.faults_subset b.faults_subset
  | .label _ => List.nil_subset _
  | .jump e _ => e.faults_subset
  | .cjump _ l r _ _ => append_subset_misses l.faults_subset r.faults_subset
  | .move d s => by
      rw [Stm.faults, Stm.moves, Exp.misses_cons, Exp.misses_append, ← List.append_assoc]
      exact append_subset_append d.aimFaults_subset s.faults_subset
  | .exp e => e.faults_subset

end

mutual

/-- Selection comes to every move unless it stops before. -/
theorem Exp.misses_eq_nil : ∀ e : Exp, e.faults = [] → misses e.moves = []
  | .binop _ l r, h => by
      obtain ⟨hl, hr⟩ := List.append_eq_nil_iff.1 h
      rw [Exp.moves, Exp.misses_append, l.misses_eq_nil hl, r.misses_eq_nil hr, List.append_nil]
  | .mem a, h => a.misses_eq_nil h
  | .temp _, _ => rfl
  | .eseq s e, h => by
      obtain ⟨hs, he⟩ := List.append_eq_nil_iff.1 h
      rw [Exp.moves, Exp.misses_append, s.misses_eq_nil hs, e.misses_eq_nil he, List.append_nil]
  | .name _, _ => rfl
  | .const _, _ => rfl
  | .call f args, h => by
      obtain ⟨hf, hargs⟩ := List.append_eq_nil_iff.1 h
      rw [Exp.moves, Exp.misses_append, f.misses_eq_nil hf, Exp.missesAll_eq_nil args hargs,
        List.append_nil]

theorem Exp.missesAll_eq_nil :
    ∀ es : List Exp, Exp.faultsAll es = [] → misses (Exp.movesAll es) = []
  | [], _ => rfl
  | e :: es, h => by
      obtain ⟨he, hes⟩ := List.append_eq_nil_iff.1 h
      rw [Exp.movesAll, Exp.misses_append, e.misses_eq_nil he, Exp.missesAll_eq_nil es hes,
        List.append_nil]

theorem Exp.miss_eq_nil : ∀ d : Exp, d.aimFaults = [] → d.miss = [] ∧ misses d.moves = []
  | .mem a, h => ⟨rfl, a.misses_eq_nil h⟩
  | .temp _, _ => ⟨rfl, rfl⟩
  | .eseq s d, h => by
      obtain ⟨hs, hd⟩ := List.append_eq_nil_iff.1 h
      obtain ⟨hmiss, hmoves⟩ := d.miss_eq_nil hd
      rw [Exp.moves, Exp.misses_append, s.misses_eq_nil hs, hmoves, List.append_nil]
      exact ⟨hmiss, rfl⟩

theorem Stm.misses_eq_nil : ∀ s : Stm, s.faults = [] → misses s.moves = []
  | .seq a b, h => by
      obtain ⟨ha, hb⟩ := List.append_eq_nil_iff.1 h
      rw [Stm.moves, Exp.misses_append, a.misses_eq_nil ha, b.misses_eq_nil hb, List.append_nil]
  | .label _, _ => rfl
  | .jump e _, h => e.misses_eq_nil h
  | .cjump _ l r _ _, h => by
      obtain ⟨hl, hr⟩ := List.append_eq_nil_iff.1 h
      rw [Stm.moves, Exp.misses_append, l.misses_eq_nil hl, r.misses_eq_nil hr, List.append_nil]
  | .move d s, h => by
      obtain ⟨hd, hs⟩ := List.append_eq_nil_iff.1 h
      obtain ⟨hmiss, hmoves⟩ := d.miss_eq_nil hd
      rw [Stm.moves, Exp.misses_cons, Exp.misses_append, hmiss, hmoves, s.misses_eq_nil hs,
        List.append_nil, List.append_nil]
  | .exp e, h => e.misses_eq_nil h

end

namespace Selection

/-! ## Actions -/

/-- A run that stopped at the first of some destinations, or succeeded since there is none. -/
def StoppedAt {α : Type} (result : Except SelectionError α × State) : List Exp → Prop
  | [] => ∃ a S, result = (.ok a, S)
  | d :: _ => ∃ S, result = (.error (.badDestination d), S)

/-- An action stops at the first of some destinations, in every state. -/
def Stops {α : Type} (x : SelectM α) (faults : List Exp) : Prop :=
  ∀ S, StoppedAt (x.run.run S) faults

section Stops

variable {target : Target} {α β : Type} {x : SelectM α} {f : α → SelectM β} {ds ds' : List Exp}

theorem stops_pure (a : α) : Stops (pure a : SelectM α) [] := fun S => ⟨a, S, rfl⟩

theorem stops_throw (d : Exp) (ds : List Exp) :
    Stops (throw (.badDestination d) : SelectM α) (d :: ds) := fun S => ⟨S, rfl⟩

theorem stops_fresh : Stops fresh [] := fun _ => ⟨_, _, rfl⟩

theorem stops_emit (op : Operation) : Stops (emit op) [] := fun _ => ⟨_, _, rfl⟩

theorem stops_reserveOutgoing (n : Nat) : Stops (reserveOutgoing n) [] := fun _ => ⟨_, _, rfl⟩

theorem Stops.bind (hx : Stops x ds) (hf : ∀ a, Stops (f a) ds') :
    Stops (x >>= f) (ds ++ ds') := fun S => by
  cases ds with
  | nil =>
      obtain ⟨a, S', hrun⟩ := hx S
      rw [List.nil_append, run_bind_ok hrun]
      exact hf a S'
  | cons d ds =>
      obtain ⟨S', hrun⟩ := hx S
      exact ⟨S', run_bind_error hrun⟩

/-- What comes first succeeds. -/
theorem Stops.nil_bind (hx : Stops x []) (hf : ∀ a, Stops (f a) ds) : Stops (x >>= f) ds :=
  hx.bind hf

/-- What follows succeeds. -/
theorem Stops.bind_nil (hx : Stops x ds) (hf : ∀ a, Stops (f a) []) : Stops (x >>= f) ds :=
  List.append_nil ds ▸ hx.bind hf

end Stops

/-! ## Operands without faults -/

section Nothing

variable {target : Target} {e : Exp} {c : Int}

theorem faults_of_constant? (h : e.constant? = some c) : e.faults = [] := by
  rw [constant?_eq_some h]
  rfl

theorem faults_of_immediate? (h : immediate? e = some c) : e.faults = [] := by
  rw [(immediate?_eq_some h).1]
  rfl

theorem faults_of_isFramePointer (h : isFramePointer target e = true) : e.faults = [] := by
  cases e <;> first | rfl | cases h

end Nothing

/-! ## Tiles -/

section Tiles

variable {target : Target} {α : Type} {x : SelectM α} {ds ds' : List Exp}
  {left right value : SelectM Temp} {e l r source : Exp} {address : SelectM Address}

theorem stops_into (op : Temp → Operation) :
    Stops (do let dst ← fresh; emit (op dst); return dst) [] :=
  stops_fresh.nil_bind fun dst => (stops_emit (op dst)).nil_bind fun _ => stops_pure dst

theorem stops_intoVirtual (hx : Stops value ds) : Stops (intoVirtual target value) ds := by
  refine hx.bind_nil fun t => ?_
  split
  · exact stops_into _
  · exact stops_pure t

theorem stops_operand (hx : Stops value e.faults) : Stops (operand e value) e.faults := by
  unfold operand
  split
  · rename_i c hc
    rw [faults_of_immediate? hc]
    exact stops_pure _
  · rw [map_eq_pure_bind]
    exact hx.bind_nil fun _ => stops_pure _

/-! ### Addresses -/

theorem stops_base (hx : Stops value ds) (offset : Int) :
    Stops (do return Address.base (← value) offset) ds := hx.bind_nil fun _ => stops_pure _

theorem stops_baseAddress (hx : Stops value e.faults) (offset : Int) :
    Stops (baseAddress target e value offset) e.faults := by
  unfold baseAddress
  split
  · rw [faults_of_isFramePointer ‹_›]
    exact stops_pure _
  · exact stops_base hx offset

theorem stops_sumAddress (hl : Stops left l.faults) (hr : Stops right r.faults)
    (hsum : Stops value (l.faults ++ r.faults)) :
    Stops (sumAddress target l r left right value) (l.faults ++ r.faults) := by
  unfold sumAddress
  split
  · rename_i c hc
    rw [faults_of_immediate? hc, List.append_nil]
    exact stops_baseAddress hl c
  · rename_i c _ hc
    rw [faults_of_immediate? hc]
    exact stops_baseAddress hr c
  · exact stops_base hsum 0

theorem stops_differenceAddress (hl : Stops left l.faults)
    (hdifference : Stops value (l.faults ++ r.faults)) :
    Stops (differenceAddress target l r left value) (l.faults ++ r.faults) := by
  unfold differenceAddress
  split
  · rename_i c hc
    obtain ⟨d, hd, -⟩ := Option.map_eq_some_iff.1 hc
    split
    · rw [faults_of_constant? hd, List.append_nil]
      exact stops_baseAddress hl c
    · exact stops_base hdifference 0
  · exact stops_base hdifference 0

/-! ### Values -/

theorem stops_tempValue (t : Temp) : Stops (tempValue target t) [] := by
  unfold tempValue
  split
  · exact stops_into _
  · exact stops_pure t

theorem stops_loadInto (ha : Stops address ds) (dst : Temp) : Stops (loadInto dst address) ds :=
  ha.bind_nil fun _ => stops_emit _

theorem stops_loadValue (ha : Stops address ds) : Stops (loadValue address) ds :=
  stops_fresh.nil_bind fun dst => (stops_loadInto ha dst).bind_nil fun _ => stops_pure dst

theorem stops_arith {right : SelectM Operand} (op : ArithOp) (hl : Stops left ds)
    (hr : Stops right ds') : Stops (arith op left right) (ds ++ ds') :=
  hl.bind fun _ => hr.bind_nil fun _ => stops_fresh.nil_bind fun dst =>
    (stops_emit _).nil_bind fun _ => (stops_emit _).nil_bind fun _ => stops_pure dst

theorem stops_multiply (hl : Stops left ds) (hr : Stops right ds') :
    Stops (multiply target left right) (ds ++ ds') :=
  hl.bind fun _ => (stops_intoVirtual hr).bind_nil fun _ => (stops_emit _).nil_bind fun _ =>
    (stops_emit _).nil_bind fun _ => stops_into _

theorem stops_divide (hl : Stops left ds) (hr : Stops right ds') :
    Stops (divide target left right) (ds ++ ds') :=
  hl.bind fun _ => (stops_intoVirtual hr).bind_nil fun _ => (stops_emit _).nil_bind fun _ =>
    (stops_emit _).nil_bind fun _ => (stops_emit _).nil_bind fun _ => stops_into _

theorem stops_shift (op : ShiftOp) (hl : Stops left ds) (hr : Stops right r.faults) :
    Stops (shift target op r left right) (ds ++ r.faults) := by
  refine hl.bind fun _ => ?_
  split
  · rename_i c hc
    rw [faults_of_constant? hc]
    exact stops_fresh.nil_bind fun dst => (stops_emit _).nil_bind fun _ =>
      (stops_emit _).nil_bind fun _ => stops_pure dst
  · exact (stops_intoVirtual hr).bind_nil fun _ => stops_fresh.nil_bind fun dst =>
      (stops_emit _).nil_bind fun _ => (stops_emit _).nil_bind fun _ =>
      (stops_emit _).nil_bind fun _ => stops_pure dst

theorem stops_sum (hl : Stops left l.faults) (hr : Stops right r.faults) :
    Stops (sum target l r left right) (l.faults ++ r.faults) := by
  unfold sum
  split
  · rename_i c hfp hc
    rw [faults_of_isFramePointer hfp, faults_of_immediate? hc]
    exact stops_into _
  · exact stops_arith .add hl (stops_operand hr)

theorem stops_binop (op : BinOp) (hl : Stops left l.faults) (hr : Stops right r.faults) :
    Stops (binop target op l r left right) (l.faults ++ r.faults) := by
  cases op with
  | plus => exact stops_sum hl hr
  | minus | and | or | xor => exact stops_arith _ hl (stops_operand hr)
  | mul => exact stops_multiply hl hr
  | div => exact stops_divide hl hr
  | lshift | rshift | arshift => exact stops_shift _ hl hr

/-! ### Calls -/

theorem stops_storeArguments (slot : Nat) (ts : List Temp) :
    Stops (storeArguments target slot ts) [] := by
  induction ts generalizing slot with
  | nil => exact stops_pure ()
  | cons v rest ih => exact (stops_emit _).nil_bind fun _ => ih (slot + 1)

theorem stops_moveArguments (passed : List (Temp × Temp)) : Stops (moveArguments passed) [] := by
  induction passed with
  | nil => exact stops_pure ()
  | cons e rest ih => exact (stops_emit _).nil_bind fun _ => ih

theorem stops_callee {f : Exp} (hx : Stops value f.faults) :
    Stops (callee target f value) f.faults := by
  cases f with
  | name l => exact stops_pure _
  | binop | mem | temp | eseq | const | call =>
      unfold callee
      rw [map_eq_pure_bind]
      exact (stops_intoVirtual hx).bind_nil fun _ => stops_pure _

theorem stops_call {function : SelectM Callee} {arguments : SelectM (List Temp)}
    (hf : Stops function ds) (hargs : Stops arguments ds') :
    Stops (call target function arguments) (ds ++ ds') :=
  hf.bind fun _ => hargs.bind_nil fun _ => (stops_storeArguments 0 _).nil_bind fun _ =>
    (stops_reserveOutgoing _).nil_bind fun _ => (stops_moveArguments _).nil_bind fun _ =>
    stops_emit _

theorem stops_callValue {call : SelectM Unit} (h : Stops call ds) :
    Stops (callValue target call) ds := h.bind_nil fun _ => stops_into _

/-! ### Statements -/

theorem stops_discard (hx : Stops x ds) : Stops (discard x : SelectM Unit) ds := by
  have hmap : (discard x : SelectM Unit) = x >>= fun _ => pure () := map_eq_pure_bind _ x
  rw [hmap]
  exact hx.bind_nil fun _ => stops_pure ()

theorem stops_jump (labels : List Label) (hx : Stops value e.faults) :
    Stops (jump e labels value) e.faults := by
  cases e with
  | name l => exact stops_emit _
  | binop | mem | temp | eseq | const | call => exact hx.bind_nil fun _ => stops_emit _

theorem stops_cjump (op : RelOp) (ifTrue ifFalse : Label) (hl : Stops left l.faults)
    (hr : Stops right r.faults) :
    Stops (cjump op l r left right ifTrue ifFalse) (l.faults ++ r.faults) := by
  have hbranch : ∀ a b (op : RelOp), Stops
      (do emit (.compare a b); emit (.branch op ifTrue ifFalse)) [] := fun _ _ _ =>
    (stops_emit _).nil_bind fun _ => stops_emit _
  unfold cjump
  split
  · rename_i c hc _
    have hleft := stops_operand hl
    rw [faults_of_constant? hc] at hleft ⊢
    exact hr.bind_nil fun _ => hleft.nil_bind fun _ => hbranch _ _ _
  · exact hl.bind fun _ => (stops_operand hr).bind_nil fun _ => hbranch _ _ _

theorem stops_moveToMemory (ha : Stops address ds) (hv : Stops value source.faults) :
    Stops (moveToMemory source address value) (ds ++ source.faults) := by
  refine ha.bind fun a => ?_
  split
  · rename_i c hc
    rw [faults_of_immediate? hc]
    exact stops_emit _
  · exact hv.bind_nil fun _ => stops_emit _

theorem stops_moveToTemp (t : Temp) {load? : Option (SelectM Address)}
    (hload : ∀ address ∈ load?, Stops address source.faults) (hv : Stops value source.faults) :
    Stops (moveToTemp t source load? value) source.faults := by
  unfold moveToTemp
  split
  · rename_i c hc
    rw [faults_of_constant? hc]
    exact stops_emit _
  · exact stops_loadInto (hload _ rfl) t
  · exact hv.bind_nil fun _ => stops_emit _

end Tiles

/-! ## Trees -/

section Trees

variable {target : Target}

theorem stops_address {e : Exp} {x : SelectM Temp} (hx : Stops x e.faults)
    (hoperands : ∀ op l r, e = .binop op l r →
      Stops (l.select target) l.faults ∧ Stops (r.select target) r.faults) :
    Stops (e.selectAddress target x) e.faults := by
  unfold Exp.selectAddress
  split
  · exact stops_sumAddress (hoperands _ _ _ rfl).1 (hoperands _ _ _ rfl).2 hx
  · exact stops_differenceAddress (hoperands _ _ _ rfl).1 hx
  · exact stops_baseAddress hx 0

mutual

theorem stops_value : (e : Exp) → Stops (e.select target) e.faults
  | .binop op l r => by
      rw [Exp.select]
      exact stops_binop op (stops_value l) (stops_value r)
  | .mem e => by
      rw [Exp.select]
      exact stops_loadValue (stops_address (stops_value e) (stops_operands e))
  | .temp t => by
      rw [Exp.select]
      exact stops_tempValue t
  | .eseq s e => by
      rw [Exp.select]
      exact (stops_statement s).bind fun _ => stops_value e
  | .name l => by
      rw [Exp.select]
      exact stops_into _
  | .const c => by
      rw [Exp.select]
      exact stops_into _
  | .call f args => by
      rw [Exp.select]
      exact stops_callValue (stops_call (stops_callee (stops_value f)) (stops_values args))

theorem stops_values : (es : List Exp) → Stops (Exp.selectAll target es) (Exp.faultsAll es)
  | [] => stops_pure []
  | e :: es => by
      rw [Exp.selectAll]
      exact (stops_intoVirtual (stops_value e)).bind fun _ =>
        (stops_values es).bind_nil fun _ => stops_pure _

theorem stops_operands : (e : Exp) → ∀ op l r, e = .binop op l r →
    Stops (l.select target) l.faults ∧ Stops (r.select target) r.faults
  | .binop _ l r, _, _, _, rfl => ⟨stops_value l, stops_value r⟩

theorem stops_source : (e : Exp) → ∀ address ∈ e.selectSource? target, Stops address e.faults
  | .mem e, _, rfl => stops_address (stops_value e) (stops_operands e)

theorem stops_destination {source : Exp} {load? : Option (SelectM Address)}
    {value : SelectM Temp} (hload : ∀ address ∈ load?, Stops address source.faults)
    (hv : Stops value source.faults) : (d : Exp) →
    Stops (d.selectDestination target source load? value) (d.aimFaults ++ source.faults)
  | .mem e => by
      rw [Exp.selectDestination]
      exact stops_moveToMemory (stops_address (stops_value e) (stops_operands e)) hv
  | .temp t => by
      rw [Exp.selectDestination]
      exact stops_moveToTemp t hload hv
  | .eseq s d => by
      rw [Exp.selectDestination, Exp.aimFaults, List.append_assoc]
      exact (stops_statement s).bind fun _ => stops_destination hload hv d
  | .binop .. | .name _ | .const _ | .call .. => stops_throw _ _

theorem stops_statement : (s : Stm) → Stops (s.select target) s.faults
  | .seq a b => by
      rw [Stm.select]
      exact (stops_statement a).bind fun _ => stops_statement b
  | .label l => by
      rw [Stm.select]
      exact stops_emit _
  | .jump e labels => by
      rw [Stm.select]
      exact stops_jump labels (stops_value e)
  | .cjump op l r t f => by
      rw [Stm.select]
      exact stops_cjump op t f (stops_value l) (stops_value r)
  | .move d s => by
      rw [Stm.select]
      exact stops_destination (stops_source s) (stops_value s) d
  | .exp (.call f args) => by
      rw [Stm.select]
      exact stops_call (stops_callee (stops_value f)) (stops_values args)
  | .exp (.binop op l r) => stops_discard (stops_value (.binop op l r))
  | .exp (.mem e) => stops_discard (stops_value (.mem e))
  | .exp (.temp t) => stops_discard (stops_value (.temp t))
  | .exp (.eseq s e) => stops_discard (stops_value (.eseq s e))
  | .exp (.name l) => stops_discard (stops_value (.name l))
  | .exp (.const c) => stops_discard (stops_value (.const c))

end

/-- Selection for a body stops at its first fault. -/
theorem stops_statements (body : List Stm) :
    Stops (Stm.selectAll target body) (body.flatMap Stm.faults) := by
  induction body with
  | nil => exact stops_pure ()
  | cons s rest ih =>
      rw [Stm.selectAll, List.flatMap_cons]
      exact (stops_statement s).bind fun _ => ih

end Trees

end Selection

/-! ## Procedures -/

namespace Frame

open Selection

variable {frame : Frame} {m : Machine} {body : List Stm} {n : Namer}

/-- The frame that is left by selection, which replaces it only where it succeeds. -/
def afterSelect (frame : Frame) : Except SelectionError Selected → Frame
  | .ok selected => selected.frame
  | .error _ => frame

/-- Selection for a procedure stops at the first fault of the body. -/
theorem select_of_faults (frame : Frame) (m : Machine) (n : Namer) {d : Exp} {ds : List Exp}
    (h : body.flatMap Stm.faults = d :: ds) :
    (frame.select m body n).1 = .error (.badDestination d) := by
  have hstops : Stops (Stm.selectAll ⟨m, frame.sizeSymbol⟩ body) _ := stops_statements body
  obtain ⟨S, hrun⟩ : StoppedAt _ (d :: ds) := h ▸ hstops { namer := n }
  unfold Frame.select
  dsimp only
  rw [run_bind_error hrun]
  rfl

/-- Without a fault it ends with the exit and room for the widest call. -/
theorem select_of_no_fault (frame : Frame) (m : Machine) (n : Namer)
    (h : body.flatMap Stm.faults = []) : ∃ selected, (frame.select m body n).1 = .ok selected ∧
      selected.instrs.getLast? = some (.plain "" [] m.returnSink) ∧
      selected.frame = frame.reserveOutgoing (widestCall m body) := by
  have hstops : Stops (Stm.selectAll ⟨m, frame.sizeSymbol⟩ body) _ := stops_statements body
  obtain ⟨_, S, hrun⟩ : StoppedAt _ [] := h ▸ hstops { namer := n }
  have hroom : S.memoryArguments = widestCall m body := memoryArguments_eq_widestCall hrun
  unfold Frame.select
  dsimp only
  rw [run_bind_ok hrun]
  refine ⟨_, rfl, ?_, ?_⟩
  · change (List.map _ (S.operations.push .exit).toList).getLast? = _
    rw [Array.toList_push, List.map_append, List.getLast?_append]
    rfl
  · rw [← hroom]

/-- Selection fails exactly if some move of the body, however deep it is, has a destination that is
no place behind the statements carried out first; it names such a destination and leaves the frame.
Otherwise its code ends with the return sink, and the frame has room for the widest call, in exact
numbers if these take less than 2^63 bytes. -/
theorem select_outcome (frame : Frame) (m : Machine) (body : List Stm) (n : Namer) :
    ((∃ e, (frame.select m body n).1 = .error e) ↔
      ∃ d s, (d, s) ∈ body.flatMap Stm.moves ∧ d.bare.isPlace = false) ∧
    (∀ e, (frame.select m body n).1 = .error e →
      frame.afterSelect (frame.select m body n).1 = frame ∧
      ∃ d s, (d, s) ∈ body.flatMap Stm.moves ∧ d.bare.isPlace = false ∧
        e = .badDestination d.bare) ∧
    (∀ selected, (frame.select m body n).1 = .ok selected →
      selected.instrs.getLast? = some (.plain "" [] m.returnSink) ∧
      frame.afterSelect (frame.select m body n).1 =
        { frame with
          outgoingSize :=
            max frame.outgoingSize (wrap64 (frame.wordSize * widestCall m body)) } ∧
      (0 ≤ frame.wordSize → frame.wordSize * widestCall m body < 2 ^ 63 →
        (frame.afterSelect (frame.select m body n).1).outgoingSize =
          max frame.outgoingSize (frame.wordSize * widestCall m body))) := by
  have hsubset : body.flatMap Stm.faults ⊆ Exp.misses (body.flatMap Stm.moves) := by
    intro x hx
    obtain ⟨s, hs, hx⟩ := List.mem_flatMap.1 hx
    obtain ⟨d, source, hmove, hplace, rfl⟩ := Exp.mem_misses.1 (s.faults_subset hx)
    exact Exp.mem_misses.2 ⟨d, source, List.mem_flatMap.2 ⟨s, hs, hmove⟩, hplace, rfl⟩
  cases hfaults : body.flatMap Stm.faults with
  | nil =>
      obtain ⟨selected, hselect, hlast, hframe⟩ := select_of_no_fault frame m n hfaults
      rw [hselect]
      refine ⟨iff_of_false nofun ?_, nofun, ?_⟩
      · rintro ⟨d, source, hmove, hplace⟩
        obtain ⟨s, hs, hmove⟩ := List.mem_flatMap.1 hmove
        have hmiss : d.bare ∈ Exp.misses s.moves := Exp.mem_misses.2 ⟨d, source, hmove, hplace, rfl⟩
        rw [s.misses_eq_nil (List.flatMap_eq_nil_iff.1 hfaults s hs)] at hmiss
        cases hmiss
      · rintro _ ⟨⟩
        have hafter : selected.frame = { frame with
            outgoingSize :=
              max frame.outgoingSize (wrap64 (frame.wordSize * widestCall m body)) } := by
          rw [hframe, Int.mul_comm]
          rfl
        refine ⟨hlast, hafter, fun hword hwords => ?_⟩
        have hnonneg := Int.mul_nonneg hword (Int.natCast_nonneg (widestCall m body))
        rw [afterSelect, hafter, wrap64_eq_self (by omega) (by omega)]
  | cons d ds =>
      obtain ⟨d', source, hmove, hplace, rfl⟩ :=
        Exp.mem_misses.1 (hsubset (hfaults ▸ List.mem_cons_self))
      rw [select_of_faults frame m n hfaults]
      refine ⟨iff_of_true ⟨_, rfl⟩ ⟨d', source, hmove, hplace⟩, ?_, nofun⟩
      rintro _ ⟨⟩
      exact ⟨rfl, d', source, hmove, hplace, rfl⟩

/-- A bad move inside the address of a jump, and calls of one and of three arguments in memory. -/
theorem select_outcome_nested :
    (∃ d s, (d, s) ∈ [Stm.jump (.mem (.eseq (.move (.eseq (.label "l") (.name "a")) (.const 1))
        (.temp ⟨100⟩))) ["l"]].flatMap Stm.moves ∧ d.bare.isPlace = false) ∧
    ∃ selected, (select (.new "f" 8 .twoRegisters) .twoRegisters
        [.exp (.call (.name "g") [.call (.name "g") [.const 1, .const 2, .const 3]])] {}).1 =
        .ok selected ∧
      selected.instrs.getLast? = some (.plain "" [] Machine.twoRegisters.returnSink) ∧
      selected.frame.outgoingSize = 12 := by
  refine ⟨(select_outcome (.new "f" 8 .twoRegisters) .twoRegisters _ {}).1.1 ⟨_, rfl⟩, ?_⟩
  refine ⟨_, rfl, ?_⟩
  have h := (select_outcome (.new "f" 8 .twoRegisters) .twoRegisters
    [.exp (.call (.name "g") [.call (.name "g") [.const 1, .const 2, .const 3]])] {}).2.2 _ rfl
  exact ⟨h.1, h.2.2 (by decide) (by decide)⟩

end Frame

end TreeCompiler
