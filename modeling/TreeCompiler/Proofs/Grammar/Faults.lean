import Mathlib.Data.List.Chain
import TreeCompiler.Proofs.Grammar.Leftmost
import TreeCompiler.Tree.Parser

/-!
# Faults — where a list of tokens first goes wrong

Tokens that are no sentence of well-named temps have one first fault (`FirstFault`): a token that
no sentence can have there, the end of the tokens, or a reference to no temp, which counts from the
mark behind it on.
-/

namespace TreeCompiler

/-- Tokens without their offsets. -/
abbrev Located.tokens (ts : List Located) : List Token := ts.map Located.token

open Grammar Located

/-- A reference to no temp of the machine, and the error that says so. -/
inductive Misnames (machine : Machine) : Located → ParseError → Prop
  | lowTemp {n start stop : Nat} (h : n < Temp.firstVirtual) :
      Misnames machine ⟨start, .temp n, stop⟩ (.lowTemp n start)
  | unknownRegister {name : String} {start stop : Nat} (h : machine.registerNamed? name = none) :
      Misnames machine ⟨start, .register name, stop⟩ (.unknownRegister name start)

/-- A token that refers to a temp of the machine if it is a reference. -/
def Token.WellNamed (machine : Machine) : Token → Prop
  | .temp n => Temp.firstVirtual ≤ n
  | .register name => (machine.registerNamed? name).isSome
  | _ => True

/-- A comma or a closing parenthesis. -/
def Located.IsMark (t : Located) : Prop :=
  t.token = .punctuation .comma ∨ t.token = .punctuation .rparen

/-- Behind no reference to no temp there is a mark. -/
def NoMarkedMisname (machine : Machine) (ts : List Located) : Prop :=
  ts.IsChain fun t u => u.IsMark → ∀ e, ¬ Misnames machine t e

/-- The list of a message is ordered by names and has just the terminals that can come. -/
def ListsNext (ts : List Token) (expected : List Terminal) : Prop :=
  ((Terminal.sorted expected).map Terminal.name).Pairwise (· < ·) ∧
    ∀ x, x ∈ Terminal.sorted expected ↔ CanFollow ts x

/-- The first fault of a list of tokens, as an error. -/
inductive FirstFault (machine : Machine) (eof : Nat) (ts : List Located) : ParseError → Prop
  | unexpected {pre post : List Located} {t : Located} {expected : List Terminal}
      (hsplit : ts = pre ++ t :: post) (hviable : Viable (tokens pre))
      (hfault : ¬ Viable (tokens (pre ++ [t]))) (hexpected : ListsNext (tokens pre) expected)
      (hnames : NoMarkedMisname machine (pre ++ [t])) :
      FirstFault machine eof ts (.unexpected t expected)
  | unfinished {expected : List Terminal} (hviable : Viable (tokens ts))
      (hfault : ¬ Sentence (tokens ts)) (hexpected : ListsNext (tokens ts) expected)
      (hnames : NoMarkedMisname machine ts) :
      FirstFault machine eof ts (.unfinished eof expected)
  | reference {pre post : List Located} {t mark : Located} {e : ParseError}
      (hsplit : ts = pre ++ t :: mark :: post) (hviable : Viable (tokens (pre ++ [t])))
      (hfault : Misnames machine t e) (hmark : mark.IsMark)
      (hnames : NoMarkedMisname machine (pre ++ [t])) :
      FirstFault machine eof ts e

theorem Misnames.not_wellNamed {machine : Machine} {t : Located} {e : ParseError}
    (h : Misnames machine t e) : ¬ t.token.WellNamed machine := by
  cases h with
  | lowTemp h => exact Nat.not_le_of_lt h
  | unknownRegister h => simp [Token.WellNamed, h]

theorem Token.Refers.wellNamed {machine : Machine} {t : Token} {a : Temp}
    (h : t.Refers machine a) : t.WellNamed machine := by
  cases h with
  | temp h => exact h
  | register h => simp [Token.WellNamed, h]

/-! ## The order of names -/

theorem Terminal.sorted_names (ts : List Terminal) :
    ((sorted ts).map name).Pairwise (· < ·) := by
  have hall : (all.map name).Pairwise (· < ·) := by
    rw [← List.isChain_iff_pairwise]
    decide
  exact hall.sublist ((List.filter_sublist).map name)

/-! ## There is one first fault -/

section

variable {machine : Machine} {eof : Nat} {ts us pre pre' post post' : List Located}
  {t t' mark : Located} {e e' : ParseError} {expected expected' : List Terminal}

theorem viable_of_initial (hinitial : us <+: ts) (h : Viable (tokens ts)) : Viable (tokens us) := by
  obtain ⟨post, rfl⟩ := hinitial
  obtain ⟨vs, hvs⟩ := h
  exact ⟨tokens post ++ vs, by simpa using hvs⟩

/-- A reference to no temp with a mark behind it is a fault of its own. -/
theorem not_misnames_of_initial (hinitial : pre ++ [t, mark] <+: ts)
    (hnames : NoMarkedMisname machine ts) (hmark : mark.IsMark) : ¬ Misnames machine t e := by
  obtain ⟨post, rfl⟩ := hinitial
  have hchain : (pre ++ t :: mark :: post).IsChain
      fun t u => u.IsMark → ∀ e, ¬ Misnames machine t e := by
    simpa [NoMarkedMisname] using hnames
  exact (List.isChain_append_cons_cons.1 hchain).2.1 hmark e

theorem displayExpected_eq_of_listsNext {vs : List Token} (h : ListsNext vs expected)
    (h' : ListsNext vs expected') :
    ParseError.displayExpected expected = ParseError.displayExpected expected' := by
  have hsorted : Terminal.sorted expected = Terminal.sorted expected' := by
    refine List.filter_congr fun x _ => ?_
    have hx : x ∈ Terminal.sorted expected ↔ x ∈ Terminal.sorted expected' := by
      rw [h.2, h'.2]
    rw [Terminal.mem_sorted, Terminal.mem_sorted] at hx
    exact decide_eq_decide.2 hx
  rw [ParseError.displayExpected, ParseError.displayExpected, hsorted]

theorem Misnames.unique (h : Misnames machine t e) (h' : Misnames machine t e') : e = e' := by
  cases h <;> cases h' <;> rfl

/-- A fault that comes later does not count: the tokens up to the earlier one begin no sentence. -/
theorem not_viable_of_length_le (hsplit : ts = pre ++ t :: post) (hinitial : us <+: ts)
    (hle : pre.length < us.length) (hfault : ¬ Viable (tokens (pre ++ [t]))) :
    ¬ Viable (tokens us) := by
  have ht : pre ++ [t] <+: ts := ⟨post, by simp [hsplit]⟩
  exact fun h => hfault (viable_of_initial
    (List.prefix_of_prefix_length_le ht hinitial (by simpa)) h)

theorem not_misnames_of_length_le (hsplit : ts = pre ++ t :: mark :: post) (hinitial : us <+: ts)
    (hle : pre.length + 2 ≤ us.length) (hnames : NoMarkedMisname machine us) (hmark : mark.IsMark) :
    ¬ Misnames machine t e := by
  have ht : pre ++ [t, mark] <+: ts := ⟨post, by simp [hsplit]⟩
  exact not_misnames_of_initial (List.prefix_of_prefix_length_le ht hinitial (by simpa))
    hnames hmark

/-- An unexpected token and a reference to no temp are not both the first fault. -/
theorem not_unexpected_and_reference (hsplit : ts = pre ++ t :: post)
    (hfault : ¬ Viable (tokens (pre ++ [t]))) (hnames : NoMarkedMisname machine (pre ++ [t]))
    (hsplit' : ts = pre' ++ t' :: mark :: post') (hviable' : Viable (tokens (pre' ++ [t'])))
    (hfault' : Misnames machine t' e) (hmark' : mark.IsMark) : False := by
  -- the token comes up to the reference or behind it
  rcases Nat.lt_or_ge pre.length (pre' ++ [t']).length with hlt | hge
  · have hinitial : pre' ++ [t'] <+: ts := ⟨mark :: post', by simp [hsplit']⟩
    exact not_viable_of_length_le hsplit hinitial hlt hfault hviable'
  · have hinitial : pre ++ [t] <+: ts := ⟨post, by simp [hsplit]⟩
    have hle : pre'.length + 2 ≤ (pre ++ [t]).length := by simpa using hge
    exact not_misnames_of_length_le hsplit' hinitial hle hnames hmark' hfault'

/-- Two first faults show the same message. -/
theorem FirstFault.unique (h : FirstFault machine eof ts e) (h' : FirstFault machine eof ts e') :
    e.message = e'.message := by
  cases h with
  | @unexpected pre post t expected hsplit hviable hfault hexpected hnames =>
      cases h' with
      | @unexpected pre' post' t' expected' hsplit' hviable' hfault' hexpected' hnames' =>
          -- the tokens in front of the later fault would hold the earlier one
          rcases Nat.lt_trichotomy pre.length pre'.length with hlt | heq | hlt
          · have hinitial : pre' <+: ts := ⟨_, hsplit'.symm⟩
            exact absurd hviable' (not_viable_of_length_le hsplit hinitial hlt hfault)
          · obtain ⟨rfl, htail⟩ := List.append_inj (hsplit.symm.trans hsplit') heq
            obtain ⟨rfl, rfl⟩ := List.cons.inj htail
            have hlist := displayExpected_eq_of_listsNext hexpected hexpected'
            unfold ParseError.message ParseError.cause
            dsimp only
            rw [hlist]
          · have hinitial : pre <+: ts := ⟨_, hsplit.symm⟩
            exact absurd hviable (not_viable_of_length_le hsplit' hinitial hlt hfault')
      | unfinished hviable' _ _ _ =>
          -- the whole text begins a sentence, also up to the unexpected token
          refine absurd hviable' (not_viable_of_length_le hsplit List.prefix_rfl ?_ hfault)
          simp [hsplit]
      | reference hsplit' hviable' hfault' hmark' _ =>
          exact (not_unexpected_and_reference hsplit hfault hnames hsplit' hviable' hfault'
            hmark').elim
  | @unfinished expected hviable hfault hexpected hnames =>
      cases h' with
      | unexpected hsplit' _ hfault' _ _ =>
          refine absurd hviable (not_viable_of_length_le hsplit' List.prefix_rfl ?_ hfault')
          simp [hsplit']
      | unfinished _ _ hexpected' _ =>
          have hlist := displayExpected_eq_of_listsNext hexpected hexpected'
          unfold ParseError.message ParseError.cause
          dsimp only
          rw [hlist]
      | reference hsplit' _ hfault' hmark' _ =>
          refine absurd hfault' (not_misnames_of_length_le hsplit' List.prefix_rfl ?_ hnames hmark')
          simp [hsplit']
  | @reference pre post t mark e hsplit hviable hfault hmark hnames =>
      cases h' with
      | unexpected hsplit' _ hfault' _ hnames' =>
          exact (not_unexpected_and_reference hsplit' hfault' hnames' hsplit hviable hfault
            hmark).elim
      | unfinished _ _ _ hnames' =>
          refine absurd hfault (not_misnames_of_length_le hsplit List.prefix_rfl ?_ hnames' hmark)
          simp [hsplit]
      | @reference pre' post' t' mark' e' hsplit' hviable' hfault' hmark' hnames' =>
          -- no marked reference to no temp stands in front of the first one
          rcases Nat.lt_trichotomy pre.length pre'.length with hlt | heq | hlt
          · have hinitial : pre' ++ [t'] <+: ts := ⟨mark' :: post', by simp [hsplit']⟩
            refine absurd hfault (not_misnames_of_length_le hsplit hinitial ?_ hnames' hmark)
            simpa using Nat.succ_le_of_lt hlt
          · obtain ⟨rfl, htail⟩ := List.append_inj (hsplit.symm.trans hsplit') heq
            obtain ⟨rfl, -⟩ := List.cons.inj htail
            rw [hfault.unique hfault']
          · have hinitial : pre ++ [t] <+: ts := ⟨mark :: post, by simp [hsplit]⟩
            refine absurd hfault' (not_misnames_of_length_le hsplit' hinitial ?_ hnames hmark')
            simpa using Nat.succ_le_of_lt hlt

end

end TreeCompiler
