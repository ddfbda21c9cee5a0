import Mathlib.Logic.Function.Basic
import TreeCompiler.Selection.Operation
import TreeCompiler.Proofs.FlowGraph

/-!
# Execution — what code does before and after allocation

Code is a list of items: instructions of the program, known by their number, and instructions that
spilling inserted (`Tag`).  An instruction of the program may do anything to the values it defines
and to memory, as a function of the values it uses (`Interpretation`); a copy copies; an inserted
instruction reads or writes the slot that it is for, or computes the address of the slot.

Values are kept at places: before allocation each temp is a place of its own, after it the register
that a temp is read and written in.  A run leaves a trace of the instructions of the program that it
executed, each with the values and the memory it saw (`Run`).
-/

namespace TreeCompiler

open FlowGraph

variable {V M L : Type}

/-! ## Items -/

/-- What an inserted instruction is for. -/
inductive Insertion
  | loadSlot (offset : Int)
  | storeSlot (offset : Int)
  | frameAddress
  | constant (c : Int)
  | copy
  | add
  /-- Loads the slot at an offset through its address. -/
  | loadAt (offset : Int)
  | storeAt (offset : Int)
  deriving DecidableEq

namespace Insertion

/-- The operation, given its operands. -/
def operation (a b : Temp) : Insertion → Operation
  | .loadSlot offset => .load a (.frame offset)
  | .storeSlot offset => .store a (.frame offset)
  | .frameAddress => .frameAddress a 0
  | .constant c => .constant a c
  | .copy => .copy a b
  | .add => .arith .add a (.temp b)
  | .loadAt _ => .load a (.base b 0)
  | .storeAt _ => .store a (.base b 0)

/-- The slot that is read or written. -/
def slot? : Insertion → Option Int
  | .loadSlot offset => some offset
  | .storeSlot offset => some offset
  | .loadAt offset => some offset
  | .storeAt offset => some offset
  | _ => none

end Insertion

/-- Where an instruction comes from. -/
inductive Tag
  | source (number : Nat)
  | inserted (what : Insertion)
  deriving DecidableEq

structure Item where
  tag : Tag
  instr : Instr
  deriving DecidableEq

namespace Item

def number? (x : Item) : Option Nat :=
  match x.tag with
  | .source n => some n
  | .inserted _ => none

/-- The slot that an item reads or writes. -/
def slot? (x : Item) : Option Int :=
  match x.tag with
  | .source _ => none
  | .inserted what => what.slot?

end Item

/-- The items of a program, the first of which has the given number. -/
def itemsOf (code : List Instr) (n : Nat) : List Item :=
  (code.zipIdx n).map fun e => ⟨.source e.2, e.1⟩

/-- The instructions of items. -/
def instrsOf (code : List Item) : List Instr := code.map Item.instr

/-- The rest of items from a label on. -/
def seekItem (l : Label) : List Item → Option (List Item)
  | [] => none
  | x :: rest => if carries l x.instr then some (x :: rest) else seekItem l rest

theorem instrsOf_itemsOf (code : List Instr) (n : Nat) : instrsOf (itemsOf code n) = code := by
  induction code generalizing n with
  | nil => rfl
  | cons i rest ih =>
      have hrest := ih (n + 1)
      unfold instrsOf itemsOf at hrest ⊢
      rw [List.zipIdx_cons, List.map_cons, List.map_cons, hrest]

theorem seek_instrsOf (l : Label) (code : List Item) :
    seek l (instrsOf code) = (seekItem l code).map instrsOf := by
  induction code with
  | nil => rfl
  | cons x rest ih =>
      unfold seekItem
      change (if carries l x.instr then some (instrsOf (x :: rest)) else seek l (instrsOf rest)) = _
      split
      · rfl
      · exact ih

/-! ## Meaning -/

/-- Machine words, as far as inserted code computes with them. -/
structure Words (V : Type) where
  /-- The address at an offset from the frame pointer, given the stack pointer. -/
  address : V → Int → V
  constant : Int → V
  add : V → V → V
  add_constant : ∀ (sp : V) (c : Int), add (address sp 0) (constant c) = address sp c

/-- What an instruction of the program does. -/
structure Outcome (V M : Type) where
  /-- The value of each definition, in order. -/
  values : Nat → V
  memory : M
  /-- The label that is jumped to; control falls through if there is none. -/
  target : Option Label

/-- The outcome of each instruction of a program, given the values that it uses and the memory. -/
abbrev Interpretation (V M : Type) := Nat → List V → M → Outcome V M

/-- What an inserted instruction does to the slots, given the stack pointer and the values it uses;
the value is that of its definition. -/
inductive Insertion.Acts (w : Words V) (sp : V) (slots : Int → V) :
    Insertion → List V → V → (Int → V) → Prop
  | loadSlot (offset : Int) : Acts w sp slots (.loadSlot offset) [sp] (slots offset) slots
  | storeSlot (offset : Int) (v : V) :
      Acts w sp slots (.storeSlot offset) [v, sp] v (Function.update slots offset v)
  | frameAddress : Acts w sp slots .frameAddress [sp] (w.address sp 0) slots
  | constant (c : Int) : Acts w sp slots (.constant c) [] (w.constant c) slots
  | copy (v : V) : Acts w sp slots .copy [v] v slots
  | add (a b : V) : Acts w sp slots .add [a, b] (w.add b a) slots
  | loadAt (offset : Int) :
      Acts w sp slots (.loadAt offset) [w.address sp offset] (slots offset) slots
  | storeAt (offset : Int) (v : V) : Acts w sp slots (.storeAt offset) [v, w.address sp offset] v
      (Function.update slots offset v)

/-- What an item does: the outcome and the slots behind it. -/
inductive Item.Acts (w : Words V) (I : Interpretation V M) (sp : V) (memory : M) (slots : Int → V) :
    Item → List V → Outcome V M → (Int → V) → Prop
  /-- A label has no effect; there is no definition whose value would matter. -/
  | label (n : Nat) (text : String) (l : Label) (values : Nat → V) :
      Acts w I sp memory slots ⟨.source n, .label text l⟩ [] ⟨values, memory, none⟩ slots
  | copy (n : Nat) (text : String) (d s : Temp) (v : V) :
      Acts w I sp memory slots ⟨.source n, .copy text d s⟩ [v] ⟨fun _ => v, memory, none⟩ slots
  | oper (n : Nat) (i : Instr) (vs : List V) (hlabel : i.label? = none)
      (hcopy : i.movePair? = none) :
      Acts w I sp memory slots ⟨.source n, i⟩ vs (I n vs memory) slots
  | inserted (what : Insertion) (i : Instr) (vs : List V) (v : V) (slots' : Int → V)
      (h : what.Acts w sp slots vs v slots') :
      Acts w I sp memory slots ⟨.inserted what, i⟩ vs ⟨fun _ => v, memory, none⟩ slots'

/-! ## Steps and runs -/

/-- Values at places, and where control is. -/
structure State (L V M : Type) where
  file : L → V
  slots : Int → V
  memory : M
  rest : List Item

/-- An execution of an instruction of the program. -/
structure Event (V M : Type) where
  number : Nat
  operands : List V
  memory : M

/-- Write the definitions of an instruction in order. -/
def write [DecidableEq L] (loc : Temp → L) : List Temp → (Nat → V) → (L → V) → L → V
  | [], _, file => file
  | d :: ds, values, file =>
      write loc ds (fun n => values (n + 1)) (Function.update file (loc d) (values 0))

/-- The values that an item uses. -/
def Item.operands (loc : Temp → L) (file : L → V) (x : Item) : List V :=
  x.instr.uses.map fun t => file (loc t)

/-- What an item leaves in the trace. -/
def Item.events (x : Item) (operands : List V) (memory : M) : List (Event V M) :=
  match x.tag with
  | .source n => [⟨n, operands, memory⟩]
  | .inserted _ => []

section Step

variable [DecidableEq L] (loc : Temp → L) (sp : Temp) (w : Words V) (I : Interpretation V M)
  (code : List Item)

/-- Where control goes from an instruction: behind it, or to a label that it may jump to. -/
inductive Goes (i : Instr) (rest : List Item) : Option Label → List Item → Prop
  | fall (h : i.fallsThrough = true) : Goes i rest none rest
  | jump {l : Label} {dest : List Item} (hl : l ∈ i.targets) (hseek : seekItem l code = some dest) :
      Goes i rest (some l) dest

/-- One step: the first item of the rest acts, and control goes on. -/
inductive Step : State L V M → List (Event V M) → State L V M → Prop
  | act {file : L → V} {slots slots' : Int → V} {memory : M} {x : Item} {rest dest : List Item}
      {o : Outcome V M}
      (hacts : x.Acts w I (file (loc sp)) memory slots (x.operands loc file) o slots')
      (hgoes : Goes code x.instr rest o.target dest) :
      Step ⟨file, slots, memory, x :: rest⟩ (x.events (x.operands loc file) memory)
        ⟨write loc x.instr.defs o.values file, slots', o.memory, dest⟩

/-- Some steps, with the trace that they leave. -/
inductive Run : State L V M → List (Event V M) → State L V M → Prop
  | refl (s : State L V M) : Run s [] s
  | step {s₁ s₂ s₃ : State L V M} {es tr : List (Event V M)} (h : Step loc sp w I code s₁ es s₂)
      (hrun : Run s₂ tr s₃) : Run s₁ (es ++ tr) s₃

end Step

section Lemmas

variable [DecidableEq L] {loc : Temp → L} {sp : Temp} {w : Words V} {I : Interpretation V M}
  {code : List Item} {s₁ s₂ s₃ : State L V M} {tr tr' : List (Event V M)}

theorem Run.trans (h : Run loc sp w I code s₁ tr s₂) (h' : Run loc sp w I code s₂ tr' s₃) :
    Run loc sp w I code s₁ (tr ++ tr') s₃ := by
  induction h with
  | refl s => exact h'
  | step hstep _ ih =>
      rw [List.append_assoc]
      exact .step hstep (ih h')

theorem Step.of_goes {file : L → V} {slots slots' : Int → V} {memory : M} {x : Item}
    {rest dest : List Item} {o : Outcome V M} {l : Option Label}
    (hacts : x.Acts w I (file (loc sp)) memory slots (x.operands loc file) o slots')
    (hl : o.target = l) (hgoes : Goes code x.instr rest l dest) :
    Step loc sp w I code ⟨file, slots, memory, x :: rest⟩ (x.events (x.operands loc file) memory)
      ⟨write loc x.instr.defs o.values file, slots', o.memory, dest⟩ := by
  subst hl
  exact .act hacts hgoes

theorem Step.run {es : List (Event V M)} (h : Step loc sp w I code s₁ es s₂) :
    Run loc sp w I code s₁ es s₂ := by
  have hrun := Run.step h (.refl s₂)
  rwa [List.append_nil] at hrun

/-- Control goes as the flow of the instructions says. -/
theorem Goes.next {x : Item} {rest dest : List Item} {l : Option Label}
    (h : Goes code x.instr rest l dest) :
    Next (instrsOf code) (instrsOf (x :: rest)) (instrsOf dest) := by
  cases h with
  | fall h => exact .fall h
  | jump hl hseek =>
      refine .jump hl ?_
      rw [seek_instrsOf, hseek]
      rfl

theorem seekItem_suffix {l : Label} {dest : List Item} (h : seekItem l code = some dest) :
    dest <:+ code := by
  induction code with
  | nil => cases h
  | cons x rest ih =>
      unfold seekItem at h
      split at h
      · cases h
        exact List.suffix_refl _
      · exact (ih h).trans (List.suffix_cons x rest)

theorem Goes.suffix {x : Item} {rest dest : List Item} {l : Option Label}
    (h : Goes code x.instr rest l dest) (hsuffix : x :: rest <:+ code) : dest <:+ code := by
  cases h with
  | fall h => exact (List.suffix_cons x _).trans hsuffix
  | jump hl hseek => exact seekItem_suffix hseek

/-- A place that no definition is written to keeps its value. -/
theorem write_of_forall_ne {ds : List Temp} {values : Nat → V} {file : L → V} {x : L}
    (h : ∀ d ∈ ds, loc d ≠ x) : write loc ds values file x = file x := by
  induction ds generalizing values file with
  | nil => rfl
  | cons d ds ih =>
      rcases List.forall_mem_cons.1 h with ⟨hd, hds⟩
      exact (ih hds).trans (Function.update_of_ne (Ne.symm hd) _ _)

/-- Written in other places, a temp that shares its place with no other definition has the same
value. -/
theorem write_eq {ds : List Temp} {values : Nat → V} {file : L → V} {plain : Temp → V} {t : Temp}
    (hne : ∀ d ∈ ds, d ≠ t → loc d ≠ loc t) (h : t ∈ ds ∨ file (loc t) = plain t) :
    write loc ds values file (loc t) = write id ds values plain t := by
  induction ds generalizing values file plain with
  | nil => exact h.resolve_left List.not_mem_nil
  | cons d ds ih =>
      rcases List.forall_mem_cons.1 hne with ⟨hd, hds⟩
      refine ih hds ?_
      by_cases hdt : d = t
      · subst hdt
        refine .inr ?_
        rw [Function.update_self]
        exact (Function.update_self (id d) (values 0) plain).symm
      · have hloc := hd hdt
        rcases h with hmem | heq
        · exact .inl ((List.mem_cons.1 hmem).resolve_left (Ne.symm hdt))
        · refine .inr ?_
          rw [Function.update_of_ne (Ne.symm hloc), heq]
          exact (Function.update_of_ne (Ne.symm hdt) _ _).symm

end Lemmas

end TreeCompiler
