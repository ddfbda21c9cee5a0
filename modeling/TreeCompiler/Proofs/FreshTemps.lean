import TreeCompiler.Proofs.Procedures
import TreeCompiler.Proofs.Selection.Marks

/-!
# FreshTemps — no temp is created twice in a file

The temps that are created are written down along the run of each pass, also of one that fails:
selection (`Selection.Draws`), spilling (`Spill.Draws`), the rounds of an allocation
(`Allocation.Draws`), and the procedures of a file (`Procedure.DrawsAll`).  Whatever was written
down, it is what the namer hands out between the start and the end of the run (`Namer.Hands`), so
that nothing is created twice (`Procedure.temps_created_once`).
-/

namespace TreeCompiler

open Selection

/-! ## Handing out temps -/

namespace Namer

/-- The temps that a namer hands out one after the other, and the namer that is left. -/
inductive Hands : Namer → List Temp → Namer → Prop
  | nil (n : Namer) : Hands n [] n
  | cons {n n' : Namer} {ts : List Temp} (h : Hands n.freshTemp.2 ts n') :
      Hands n (n.freshTemp.1 :: ts) n'

variable {n n₁ n' : Namer} {ts us : List Temp}

theorem hands_freshTemp (n : Namer) : Hands n [n.freshTemp.1] n.freshTemp.2 := .cons (.nil _)

theorem Hands.append (h : Hands n ts n₁) (h' : Hands n₁ us n') : Hands n (ts ++ us) n' := by
  induction h with
  | nil => exact h'
  | cons _ ih => exact .cons (ih h')

/-- Temps are numbered in the order in which they are handed out. -/
theorem Hands.ids (h : Hands n ts n') :
    ts.map Temp.id = List.range' n.nextTemp ts.length ∧ n'.nextTemp = n.nextTemp + ts.length := by
  induction h with
  | nil => exact ⟨rfl, rfl⟩
  | @cons n n' ts _ ih =>
      obtain ⟨hids, hnext⟩ := ih
      rw [nextTemp_freshTemp] at hids hnext
      refine ⟨?_, by rw [hnext, List.length_cons]; omega⟩
      rw [List.map_cons, hids, List.length_cons, List.range'_succ]
      rfl

/-- What was handed out is determined. -/
theorem Hands.unique (h : Hands n ts n') (h' : Hands n us n') : ts = us := by
  have hlength : ts.length = us.length :=
    Nat.add_left_cancel (h.ids.2.symm.trans h'.ids.2)
  have hinjective : Function.Injective Temp.id := fun a b heq => by
    cases a
    exact congrArg Temp.mk heq
  refine List.map_injective_iff.2 hinjective ?_
  rw [h.ids.1, h'.ids.1, hlength]

theorem Hands.nodup (h : Hands n ts n') : ts.Nodup := by
  refine List.Nodup.of_map Temp.id ?_
  rw [h.ids.1]
  exact List.nodup_range'

/-- What is handed out lies between the two namers. -/
theorem Hands.mem_iff (h : Hands n ts n') {t : Temp} :
    t ∈ ts ↔ n.nextTemp ≤ t.id ∧ t.id < n'.nextTemp := by
  have hinjective : ∀ a : Temp, a.id = t.id → a = t := fun a heq => by
    cases a
    exact congrArg Temp.mk heq
  have hmem : t ∈ ts ↔ t.id ∈ ts.map Temp.id := by
    refine ⟨List.mem_map_of_mem, fun ht => ?_⟩
    obtain ⟨a, ha, heq⟩ := List.mem_map.1 ht
    exact hinjective a heq ▸ ha
  rw [hmem, h.ids.1, List.mem_range'_1, h.ids.2]

theorem hands_freshFor (n : Namer) (rs : List Temp) :
    Hands n ((n.freshFor rs).1.map Prod.snd) (n.freshFor rs).2 := by
  induction rs generalizing n with
  | nil => exact .nil n
  | cons r rs ih => exact .cons (ih n.freshTemp.2)

end Namer

open Namer (Hands)

/-! ## Selection -/

namespace Selection

/-- The temps that an action of selection creates, as it is put together from smaller ones: each of
them is the answer to a `fresh`. -/
inductive Draws : {α : Type} → SelectM α → State → List Temp → Prop
  | pure {α : Type} (v : α) (S : State) : Draws (pure v) S []
  | throw {α : Type} (e : SelectionError) (S : State) : Draws (throw e : SelectM α) S []
  | fresh (S : State) : Draws fresh S [S.namer.freshTemp.1]
  | emit (op : Operation) (S : State) : Draws (emit op) S []
  | reserveOutgoing (n : Nat) (S : State) : Draws (reserveOutgoing n) S []
  | bind {α β : Type} {x : SelectM α} {f : α → SelectM β} {S S₁ : State} {v : α}
      {ts us : List Temp} (hx : Draws x S ts) (hrun : x.run.run S = (.ok v, S₁))
      (hf : Draws (f v) S₁ us) : Draws (x >>= f) S (ts ++ us)
  | stop {α β : Type} {x : SelectM α} {f : α → SelectM β} {S S₁ : State} {e : SelectionError}
      {ts : List Temp} (hx : Draws x S ts) (hrun : x.run.run S = (.error e, S₁)) :
      Draws (x >>= f) S ts

variable {target : Target} {α : Type} {x : SelectM α} {S : State} {ts : List Temp} {ms : List Mark}
  {Q : α → Prop}

theorem Draws.hands (h : Draws x S ts) : Hands S.namer ts (x.run.run S).2.namer := by
  induction h with
  | pure | throw | emit | reserveOutgoing => exact .nil _
  | fresh S => exact Namer.hands_freshTemp _
  | bind _ hrun _ ihx ihf =>
      rw [hrun] at ihx
      rw [run_bind_ok hrun]
      exact ihx.append ihf
  | stop _ hrun ih =>
      rw [hrun] at ih
      rw [run_bind_error hrun]
      exact ih

/-- Every action that is put together from the tiles has its temps written down. -/
theorem Yields.exists_draws (h : Yields target x ms Q) (S : State) : ∃ ts, Draws x S ts := by
  induction h generalizing S with
  | pure => exact ⟨_, .pure _ S⟩
  | throw => exact ⟨_, .throw _ S⟩
  | fresh => exact ⟨_, .fresh S⟩
  | reserveOutgoing n => exact ⟨_, .reserveOutgoing n S⟩
  | emit => exact ⟨_, .emit _ S⟩
  | @bind α β x f ms ms' Q P hx hf ihx ihf =>
      obtain ⟨ts, hts⟩ := ihx S
      rcases hrun : x.run.run S with ⟨e | v, S₁⟩
      · exact ⟨ts, .stop hts hrun⟩
      · obtain ⟨us, hus⟩ := ihf v (hx.run hrun).1 S₁
        exact ⟨ts ++ us, .bind hts hrun hus⟩

end Selection

/-! ## Spilling -/

namespace Spill

variable {target : Target} {slots : List (Temp × Access)} {i : Instr} {code : List Instr}
  {n : Namer} {ts : List Temp}

/-- Each temp in the place of a spilled one is handed out for it. -/
theorem hands_replaceTemps (fp : Exp) (defs uses : List Temp) (slots : List (Temp × Access))
    (r : Replaced) (n : Namer) : ∃ ts,
      (replaceTemps fp defs uses slots r n).1.fresh = r.fresh ++ ts ∧
      Hands n ts (replaceTemps fp defs uses slots r n).2 := by
  induction slots generalizing r n with
  | nil => exact ⟨[], (List.append_nil _).symm, .nil n⟩
  | cons e slots ih =>
      unfold replaceTemps
      dsimp only
      split
      · exact ih r n
      · obtain ⟨ts, hfresh, hhands⟩ := ih _ n.freshTemp.2
        exact ⟨n.freshTemp.1 :: ts, hfresh.trans (by simp), .cons hhands⟩

/-- An instruction with fresh temps for its spilled ones. -/
def replaced (target : Target) (slots : List (Temp × Access)) (i : Instr) (n : Namer) :
    Replaced × Namer :=
  replaceTemps (.temp target.machine.framePointer) i.defs i.uses slots { instr := i } n

theorem hands_replaced (target : Target) (slots : List (Temp × Access)) (i : Instr) (n : Namer) :
    Hands n (replaced target slots i n).1.fresh (replaced target slots i n).2 := by
  obtain ⟨ts, hfresh, hhands⟩ := hands_replaceTemps (.temp target.machine.framePointer)
    i.defs i.uses slots { instr := i } n
  unfold replaced
  rw [hfresh]
  exact hhands

/-- The temps that spilling creates for an instruction: those in the place of spilled ones, then
those of the loads, then those of the stores, unless a load fails. -/
inductive DrawsFor (target : Target) (slots : List (Temp × Access)) (i : Instr) (n : Namer) :
    List Temp → Prop
  | stop {n₂ : Namer} {e : SelectionError} {ts : List Temp}
      (hloads : Draws (Stm.selectAll target (replaced target slots i n).1.loads)
        { namer := (replaced target slots i n).2 } ts)
      (hrun : selectMoves target (replaced target slots i n).1.loads (replaced target slots i n).2 =
        (.error e, n₂)) :
      DrawsFor target slots i n ((replaced target slots i n).1.fresh ++ ts)
  | all {n₂ : Namer} {before : List Instr} {ts us : List Temp}
      (hloads : Draws (Stm.selectAll target (replaced target slots i n).1.loads)
        { namer := (replaced target slots i n).2 } ts)
      (hrun : selectMoves target (replaced target slots i n).1.loads (replaced target slots i n).2 =
        (.ok before, n₂))
      (hstores : Draws (Stm.selectAll target (replaced target slots i n).1.stores)
        { namer := n₂ } us) :
      DrawsFor target slots i n ((replaced target slots i n).1.fresh ++ (ts ++ us))

/-- The temps that spilling creates for instructions in order, unless it fails. -/
inductive DrawsAll (target : Target) (slots : List (Temp × Access)) :
    List Instr → Namer → List Temp → Prop
  | nil (n : Namer) : DrawsAll target slots [] n []
  | stop {i : Instr} {rest : List Instr} {n n' : Namer} {e : SelectionError} {ts : List Temp}
      (h : DrawsFor target slots i n ts) (hrun : spillInstr target slots i n = (.error e, n')) :
      DrawsAll target slots (i :: rest) n ts
  | cons {i : Instr} {rest : List Instr} {n n' : Namer} {r : SpilledCode} {ts us : List Temp}
      (h : DrawsFor target slots i n ts) (hrun : spillInstr target slots i n = (.ok r, n'))
      (hrest : DrawsAll target slots rest n' us) : DrawsAll target slots (i :: rest) n (ts ++ us)

theorem hands_selectMoves {moves : List Stm}
    (h : Draws (Stm.selectAll target moves) { namer := n } ts) :
    Hands n ts (selectMoves target moves n).2 := h.hands

theorem DrawsFor.hands (h : DrawsFor target slots i n ts) :
    Hands n ts (spillInstr target slots i n).2 := by
  have hreplaced := hands_replaced target slots i n
  cases h with
  | @stop n₂ e ts hloads hrun =>
      have hhands := hands_selectMoves hloads
      have heq : spillInstr target slots i n = (.error e, n₂) := by
        unfold spillInstr
        unfold replaced at hrun
        dsimp only
        rw [hrun]
      rw [hrun] at hhands
      rw [heq]
      exact hreplaced.append hhands
  | @all n₂ before ts us hloads hrun hstores =>
      have hhands := hands_selectMoves hloads
      have heq : (spillInstr target slots i n).2 =
          (selectMoves target (replaced target slots i n).1.stores n₂).2 := by
        unfold spillInstr
        unfold replaced at hrun ⊢
        dsimp only
        rw [hrun]
      rw [hrun] at hhands
      rw [heq]
      exact hreplaced.append (hhands.append (hands_selectMoves hstores))

theorem DrawsAll.hands (h : DrawsAll target slots code n ts) :
    Hands n ts (spillAll target slots code n).2 := by
  induction h with
  | nil n => exact .nil n
  | stop h hrun =>
      have hhands := h.hands
      unfold spillAll
      rw [hrun] at hhands ⊢
      exact hhands
  | cons h hrun _ ih =>
      have hhands := h.hands
      unfold spillAll
      rw [hrun] at hhands ⊢
      exact hhands.append ih

theorem exists_drawsFor (target : Target) (slots : List (Temp × Access)) (i : Instr) (n : Namer) :
    ∃ ts, DrawsFor target slots i n ts := by
  obtain ⟨ts, hloads⟩ := (@yields_statements target
    (replaced target slots i n).1.loads).exists_draws { namer := (replaced target slots i n).2 }
  rcases hrun : selectMoves target (replaced target slots i n).1.loads (replaced target slots i n).2
    with ⟨e | before, n₂⟩
  · exact ⟨_, .stop hloads hrun⟩
  · obtain ⟨us, hstores⟩ := (@yields_statements target
      (replaced target slots i n).1.stores).exists_draws { namer := n₂ }
    exact ⟨_, .all hloads hrun hstores⟩

theorem exists_drawsAll (target : Target) (slots : List (Temp × Access)) (code : List Instr)
    (n : Namer) : ∃ ts, DrawsAll target slots code n ts := by
  induction code generalizing n with
  | nil => exact ⟨_, .nil n⟩
  | cons i rest ih =>
      obtain ⟨ts, hts⟩ := exists_drawsFor target slots i n
      rcases hrun : spillInstr target slots i n with ⟨e | r, n'⟩
      · exact ⟨_, .stop hts hrun⟩
      · obtain ⟨us, hus⟩ := ih n'
        exact ⟨_, .cons hts hrun hus⟩

end Spill

/-! ## Rounds -/

namespace Allocation

variable {m : Machine} {options : AllocOptions} {left done : Nat} {p : Progress} {ts : List Temp}

/-- The temps that spilling creates in a round that spills. -/
def RoundDraws (m : Machine) (p : Progress) (spilled : List Temp) (ts : List Temp) : Prop :=
  Spill.DrawsAll ⟨m, p.frame.sizeSymbol⟩ (Spill.places (Spill.slots p.frame spilled).1) p.instrs
    p.namer ts

theorem RoundDraws.hands {spilled : List Temp} (h : RoundDraws m p spilled ts) :
    Hands p.namer ts (p.frame.spill m p.instrs spilled p.namer).2.2 :=
  Spill.DrawsAll.hands h

/-- The temps that at most `left` more rounds create: nothing where there are no more rounds, where
coloring fails and in a round that spills nothing. -/
inductive DrawsWithin (m : Machine) (options : AllocOptions) : Nat → Progress → List Temp → Prop
  | unsettled (p : Progress) : DrawsWithin m options 0 p []
  | uncolored {left : Nat} {p : Progress} {e : AllocationError}
      (hcolor : colorCode m options p.introduced p.instrs = .error e) :
      DrawsWithin m options (left + 1) p []
  | last {left : Nat} {p : Progress} {g : Interference} {r : ColorResult}
      (hcolor : colorCode m options p.introduced p.instrs = .ok (g, r))
      (hnone : r.spilled.isEmpty = true) : DrawsWithin m options (left + 1) p []
  | stop {left : Nat} {p : Progress} {g : Interference} {r : ColorResult} {e : SelectionError}
      {frame : Frame} {n : Namer} {ts : List Temp}
      (hcolor : colorCode m options p.introduced p.instrs = .ok (g, r))
      (hsome : r.spilled.isEmpty = false)
      (hspill : p.frame.spill m p.instrs r.spilled.toList p.namer = (.error e, frame, n))
      (h : RoundDraws m p r.spilled.toList ts) : DrawsWithin m options (left + 1) p ts
  | round {left : Nat} {p : Progress} {g : Interference} {r : ColorResult} {s : SpilledCode}
      {frame : Frame} {n : Namer} {ts us : List Temp}
      (hcolor : colorCode m options p.introduced p.instrs = .ok (g, r))
      (hsome : r.spilled.isEmpty = false)
      (hspill : p.frame.spill m p.instrs r.spilled.toList p.namer = (.ok s, frame, n))
      (h : RoundDraws m p r.spilled.toList ts)
      (hrest : DrawsWithin m options left
        { instrs := s.instrs, frame, namer := n, introduced := p.introduced.union (.ofList s.fresh)
          spilled := p.spilled ++ r.spilled.toList } us) :
      DrawsWithin m options (left + 1) p (ts ++ us)

theorem DrawsWithin.hands (h : DrawsWithin m options left p ts) (done : Nat) :
    Hands p.namer ts (allocateWithin m options done left p).2 := by
  induction h generalizing done with
  | unsettled p => exact .nil _
  | uncolored hcolor =>
      rw [allocateWithin_of_uncolored hcolor]
      exact .nil _
  | last hcolor hnone =>
      rw [allocateWithin_of_last hcolor hnone]
      exact .nil _
  | stop hcolor hsome hspill h =>
      have hhands := h.hands
      rw [hspill] at hhands
      rw [allocateWithin_of_stop hcolor hsome hspill]
      exact hhands
  | round hcolor hsome hspill h _ ih =>
      have hhands := h.hands
      rw [hspill] at hhands
      rw [allocateWithin_of_next hcolor hsome hspill]
      exact hhands.append (ih (done + 1))

theorem exists_drawsWithin (m : Machine) (options : AllocOptions) (left : Nat) (p : Progress) :
    ∃ ts, DrawsWithin m options left p ts := by
  induction left generalizing p with
  | zero => exact ⟨_, .unsettled p⟩
  | succ left ih =>
      have hdraws : ∀ ts, ∃ us, RoundDraws m p ts us := fun ts => Spill.exists_drawsAll _ _ _ _
      have hturn := turn m options 0 left p
      generalize allocateWithin m options 0 (left + 1) p = outcome at hturn
      cases hturn with
      | uncolored hcolor => exact ⟨_, .uncolored hcolor⟩
      | last hcolor hnone => exact ⟨_, .last hcolor hnone⟩
      | stop hcolor hsome hspill =>
          obtain ⟨ts, hts⟩ := hdraws _
          exact ⟨_, .stop hcolor hsome hspill hts⟩
      | next hcolor hsome hspill =>
          obtain ⟨ts, hts⟩ := hdraws _
          obtain ⟨us, hus⟩ := ih _
          exact ⟨_, .round hcolor hsome hspill hts hus⟩

end Allocation

/-! ## Procedures -/

/-- The code that selection and allocation give for a procedure, as far as they succeed. -/
def Attempt.codes (a : Attempt) : List (List Instr) :=
  a.selected?.toList ++ (a.outcome.toOption.map Allocation.instrs).toList

namespace Procedure

variable {m : Machine} {options : AllocOptions} {p : Procedure} {ps : List Procedure}
  {n : Namer} {ts : List Temp}

/-- What is selected for a procedure. -/
def selection (p : Procedure) (m : Machine) (n : Namer) : SelectM Unit := do
  Stm.selectAll ⟨m, (p.frame m).sizeSymbol⟩ (saveCalleeSaves m p.body n).1
  emit .exit

/-- The temps for the registers that a procedure keeps. -/
def copies (m : Machine) (n : Namer) : List Temp := (n.freshFor m.savedRegisters).1.map Prod.snd

/-- The temps that compiling a procedure creates: for the registers that it keeps, in selection, and
unless selection fails in the rounds of its allocation. -/
inductive Draws (m : Machine) (options : AllocOptions) (p : Procedure) (n : Namer) :
    List Temp → Prop
  | stop {e : SelectionError} {n' : Namer} {ts : List Temp}
      (hselect : p.select m n = (.error e, n'))
      (h : Selection.Draws (p.selection m n) { namer := (saveCalleeSaves m p.body n).2 } ts) :
      Draws m options p n (copies m n ++ ts)
  | all {s : Selected} {n' : Namer} {ts us : List Temp} (hselect : p.select m n = (.ok s, n'))
      (h : Selection.Draws (p.selection m n) { namer := (saveCalleeSaves m p.body n).2 } ts)
      (hrounds : Allocation.DrawsWithin m options ((Allocation.unallocated m s.instrs).size + 1)
        { instrs := s.instrs, frame := s.frame, namer := n' } us) :
      Draws m options p n (copies m n ++ (ts ++ us))

/-- The temps that compiling procedures in order creates. -/
inductive DrawsAll (m : Machine) (options : AllocOptions) :
    List Procedure → Namer → List Temp → Prop
  | nil (n : Namer) : DrawsAll m options [] n []
  | cons {p : Procedure} {ps : List Procedure} {n : Namer} {ts us : List Temp}
      (h : Draws m options p n ts) (hrest : DrawsAll m options ps (p.compile m options n).2 us) :
      DrawsAll m options (p :: ps) n (ts ++ us)

theorem hands_select
    (h : Selection.Draws (p.selection m n) { namer := (saveCalleeSaves m p.body n).2 } ts) :
    Hands n (copies m n ++ ts) (p.select m n).2 :=
  (Namer.hands_freshFor n m.savedRegisters).append h.hands

theorem Draws.hands (h : Draws m options p n ts) : Hands n ts (p.compile m options n).2 := by
  cases h with
  | stop hselect h =>
      have hhands := hands_select h
      unfold compile
      rw [hselect] at hhands ⊢
      exact hhands
  | all hselect h hrounds =>
      have hhands := hands_select h
      unfold compile
      rw [hselect] at hhands ⊢
      rw [← List.append_assoc]
      exact hhands.append (hrounds.hands 0)

theorem DrawsAll.hands (h : DrawsAll m options ps n ts) :
    Hands n ts (compileAll m options ps n).2 := by
  induction h with
  | nil n => exact .nil n
  | cons h _ ih => exact h.hands.append ih

theorem exists_draws (m : Machine) (options : AllocOptions) (p : Procedure) (n : Namer) :
    ∃ ts, Draws m options p n ts := by
  have hselection : YieldsAny ⟨m, (p.frame m).sizeSymbol⟩ (p.selection m n) _ :=
    (yields_statements _).bind_nil fun _ _ => yields_plain .exit trivial rfl rfl
  obtain ⟨ts, hts⟩ := hselection.exists_draws { namer := (saveCalleeSaves m p.body n).2 }
  rcases hselect : p.select m n with ⟨e | s, n'⟩
  · exact ⟨_, .stop hselect hts⟩
  · obtain ⟨us, hus⟩ := Allocation.exists_drawsWithin m options
      ((Allocation.unallocated m s.instrs).size + 1)
      { instrs := s.instrs, frame := s.frame, namer := n' }
    exact ⟨_, .all hselect hts hus⟩

theorem exists_drawsAll (m : Machine) (options : AllocOptions) (ps : List Procedure) (n : Namer) :
    ∃ ts, DrawsAll m options ps n ts := by
  induction ps generalizing n with
  | nil => exact ⟨_, .nil n⟩
  | cons p ps ih =>
      obtain ⟨ts, hts⟩ := exists_draws m options p n
      obtain ⟨us, hus⟩ := ih (p.compile m options n).2
      exact ⟨_, .cons hts hus⟩

/-! ## The temps of the code -/

/-- The temps of allocated code were handed out. -/
theorem lt_of_allocate {frame : Frame} {code : List Instr} {n' : Namer} {a : Allocation} {t : Temp}
    (h : frame.allocate m options code n = (.ok a, n')) (hfirst : Temp.firstVirtual ≤ n.nextTemp)
    (htemps : ∀ t, Mentions code t → t.id < n.nextTemp) (ht : Mentions a.instrs t) :
    t.id < n'.nextTemp := by
  obtain ⟨q, slots, hreaches, hfinishes, rfl⟩ := Allocation.exists_finishes h
  obtain ⟨⟨items, htracked⟩, -⟩ := hreaches.tracked hfirst htemps
  obtain ⟨i, hi, hmem⟩ := ht
  have hi : i ∈ q.instrs := by
    rw [hfinishes.instrs] at hi
    split at hi
    · exact List.mem_of_mem_filter hi
    · exact hi
  exact htracked.lt_of_mentions ⟨i, hi, hmem⟩

/-- The temps in the code of a procedure of a file were handed out. -/
theorem lt_of_mem_codes {i : Nat} {code : List Instr} {t : Temp} (hp : ps[i]? = some p)
    (hcode : code ∈ (p.compile m options (namerAt ps m options i)).1.codes)
    (ht : Mentions code t) : t.id < (p.compile m options (namerAt ps m options i)).2.nextTemp := by
  unfold compile at hcode ⊢
  rcases hselect : p.select m (namerAt ps m options i) with ⟨e | s, n'⟩
  · rw [hselect] at hcode
    cases hcode
  · rw [hselect] at hcode
    dsimp only at hcode ⊢
    obtain ⟨hfirst, htemps⟩ := lt_of_select hp hselect
    have hle : n'.nextTemp ≤ (s.frame.allocate m options s.instrs n').2.nextTemp :=
      Allocation.le_allocateWithin _ 0 (.first s.frame s.instrs n')
    rcases List.mem_append.1 hcode with hcode | hcode
    · obtain rfl := Option.some.inj (Option.mem_toList.1 hcode)
      exact Nat.lt_of_lt_of_le (htemps t ht) hle
    · rcases hallocate : s.frame.allocate m options s.instrs n' with ⟨e | a, n''⟩
      · rw [hallocate] at hcode
        cases hcode
      · rw [hallocate] at hcode
        obtain rfl := Option.some.inj (Option.mem_toList.1 hcode)
        exact lt_of_allocate hallocate hfirst htemps ht

theorem le_compileAll_of_getElem? {i : Nat} (hp : ps[i]? = some p) (n : Namer) :
    (p.compile m options (compileAll m options (ps.take i) n).2).2.nextTemp ≤
      (compileAll m options ps n).2.nextTemp := by
  induction ps generalizing n i with
  | nil => cases hp
  | cons q ps ih =>
      cases i with
      | zero =>
          cases hp
          exact le_compileAll ps _
      | succ i => exact ih hp _

/-- The temps that are created while a file is compiled, whether its procedures succeed or fail, are
virtual, are all different, and lie behind all temps that occur in the file.  The code has no other
temps from there on. -/
theorem temps_created_once (m : Machine) (options : AllocOptions) (ps : List Procedure) :
    ∃ ts, DrawsAll m options ps (namerFor ps) ts ∧
      (∀ us, DrawsAll m options ps (namerFor ps) us → us = ts) ∧ ts.Nodup ∧
      (∀ t ∈ ts, t.isVirtual = true ∧ ∀ p ∈ ps, ∀ u ∈ p.temps, u.id < t.id) ∧
      ∀ a ∈ (compileFile ps m options).1, ∀ code ∈ a.codes, ∀ t, Mentions code t →
        (namerFor ps).nextTemp ≤ t.id → t ∈ ts := by
  obtain ⟨ts, hts⟩ := exists_drawsAll m options ps (namerFor ps)
  refine ⟨ts, hts, fun us hus => hus.hands.unique hts.hands, hts.hands.nodup, ?created, ?code⟩
  case created =>
    intro t ht
    have hle := (hts.hands.mem_iff.1 ht).1
    refine ⟨decide_eq_true ((Namer.le_nextTemp_resumeAfter {} (maxTempAll ps)).trans hle), ?_⟩
    intro p hp u hu
    exact Nat.lt_of_lt_of_le (Namer.lt_nextTemp_of_atMost (le_maxTempAll hp hu)) hle
  case code =>
    intro a ha code hcode t ht hle
    obtain ⟨i, hi⟩ := List.mem_iff_getElem?.1 ha
    obtain ⟨p, hp, rfl⟩ := exists_of_getElem?_compileFile hi
    exact hts.hands.mem_iff.2 ⟨hle, Nat.lt_of_lt_of_le (lt_of_mem_codes hp hcode ht)
      (le_compileAll_of_getElem? hp _)⟩

end Procedure

end TreeCompiler
