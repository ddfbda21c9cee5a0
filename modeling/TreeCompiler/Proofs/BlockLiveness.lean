import TreeCompiler.Proofs.Blocks
import TreeCompiler.Proofs.Conflicts

/-!
# Liveness in blocks — fresh temps stay in their blocks

A point of spilled code is before the core of a block, with some loads left, or behind it, with some
stores left (`Point`).  A fresh temp is live only between its load and its last use, or between its
definition and its store (`held_of_live`), and an allocatable register is live where it is live in
the program (`live_source`).  So a fresh temp conflicts with fresh temps of its own block and with
registers that its instruction has to leave alone or defines (`clash_fresh`, `clash_register`).
-/

namespace TreeCompiler

open FlowGraph

variable {target : Target} {all bs : List Block} {b : Block} {low k : Nat} {t v r : Temp}
  {l : Label}

/-! ## The code of blocks -/

/-- The instructions of some blocks. -/
def codeOf (target : Target) (blocks : List Block) : List Instr :=
  instrsOf (itemsOfBlocks target blocks)

/-- The instructions of the program that some blocks are for. -/
def sourcesOf (blocks : List Block) : List Instr := blocks.map fun b => b.source.instr

theorem codeOf_cons : codeOf target (b :: bs) =
    b.loads.map (fun e => (Block.load target e).instr) ++ b.core.instr ::
      (b.stores.map (fun e => (Block.store target e).instr) ++ codeOf target bs) := by
  unfold codeOf itemsOfBlocks instrsOf
  rw [List.flatMap_cons, Block.items]
  simp [Function.comp_def]

/-! ## Operands -/

theorem defs_load (target : Target) (e : Swap) : (Block.load target e).instr.defs = [e.new] := rfl

theorem uses_load (target : Target) (e : Swap) :
    (Block.load target e).instr.uses = [target.machine.stackPointer] := rfl

theorem defs_store (target : Target) (e : Swap) : (Block.store target e).instr.defs = [] := rfl

theorem uses_store (target : Target) (e : Swap) :
    (Block.store target e).instr.uses = [e.new, target.machine.stackPointer] := rfl

namespace Block.Tidy

variable (hb : b.Tidy target low)

include hb

/-- A temp of the source that was not spilled is in its own place; the others are in fresh temps. -/
theorem mem_map_swapped {ts : List Temp} (h : t ∈ ts.map (swapped b.swaps)) :
    (t ∈ ts ∧ swapped b.swaps t = t) ∨ ∃ e ∈ b.swaps, e.old ∈ ts ∧ e.new = t := by
  rcases List.mem_map.1 h with ⟨u, hu, rfl⟩
  by_cases hsw : ∃ e ∈ b.swaps, e.old = u
  · rcases hsw with ⟨e, he, rfl⟩
    exact .inr ⟨e, he, hu, (swapped_of_mem hb.nodup_old he).symm⟩
  · have hself : swapped b.swaps u = u := swapped_of_forall_ne fun e he h => hsw ⟨e, he, h⟩
    rw [hself]
    exact .inl ⟨hu, hself⟩

/-- A fresh temp among the operands of the core is in the place of an operand of the source. -/
theorem exists_swap {ts : List Temp} (hts : ∀ u ∈ ts, u.id < low) (hv : low ≤ v.id)
    (h : v ∈ ts.map (swapped b.swaps)) : ∃ e ∈ b.swaps, e.old ∈ ts ∧ e.new = v := by
  refine (hb.mem_map_swapped h).resolve_left fun hold => ?_
  exact absurd (hts v hold.1) (Nat.not_lt_of_le hv)

/-- A register is an operand of the core where it is one of the source. -/
theorem mem_map_swapped_register (hr : target.machine.isRegister r = true) (hlow : r.id < low)
    {ts : List Temp} : r ∈ ts.map (swapped b.swaps) ↔ r ∈ ts := by
  constructor
  · intro h
    rcases hb.mem_map_swapped h with hold | ⟨e, he, _, rfl⟩
    · exact hold.1
    · exact absurd hlow (Nat.not_lt_of_le (hb.low_le e he))
  · intro h
    refine List.mem_map.2 ⟨r, h, swapped_of_forall_ne fun e he heq => ?_⟩
    have hnot := hb.notRegister e he
    rw [heq, hr] at hnot
    cases hnot

theorem mem_fresh_of_load {e : Swap} (h : e ∈ b.loads) : e.new ∈ b.fresh :=
  List.mem_map_of_mem ((hb.loads e).1 h).1

theorem mem_fresh_of_store {e : Swap} (h : e ∈ b.stores) : e.new ∈ b.fresh :=
  List.mem_map_of_mem ((hb.stores e).1 h).1

theorem le_of_mem_fresh (h : t ∈ b.fresh) : low ≤ t.id := by
  rcases List.mem_map.1 h with ⟨e, he, rfl⟩
  exact hb.low_le e he

/-- The block of a label is the label. -/
theorem no_loads (h : b.source.instr.label? ≠ none) : b.loads = [] := by
  refine List.eq_nil_iff_forall_not_mem.2 fun e he => ?_
  have huse := ((hb.loads e).1 he).2
  cases hi : b.source.instr with
  | label =>
      rw [hi] at huse
      cases huse
  | move => exact absurd (hi ▸ rfl) h
  | oper => exact absurd (hi ▸ rfl) h

end Block.Tidy

/-! ## Points -/

/-- A point of the code of some blocks. -/
inductive Point
  /-- Before the core of a block, with some loads left. -/
  | before (loads : List Swap) (b : Block) (bs : List Block)
  /-- Behind the core of a block, with some stores left. -/
  | behind (stores : List Swap) (bs : List Block)

namespace Point

/-- The code from a point on. -/
def code (target : Target) : Point → List Instr
  | before loads b bs => loads.map (fun e => (Block.load target e).instr) ++ b.core.instr ::
      (b.stores.map (fun e => (Block.store target e).instr) ++ codeOf target bs)
  | behind stores bs => stores.map (fun e => (Block.store target e).instr) ++ codeOf target bs

/-- The rest of the program that the code from a point on is for. -/
def source : Point → List Instr
  | before _ b bs => sourcesOf (b :: bs)
  | behind _ bs => sourcesOf bs

/-- Points of the code of `all`. -/
inductive In (all : List Block) : Point → Prop
  | before {loads : List Swap} {b : Block} {bs : List Block} (hbs : b :: bs <:+ all)
      (hloads : ∀ e ∈ loads, e ∈ b.loads) : In all (before loads b bs)
  | behind {stores : List Swap} {bs : List Block} (hbs : bs <:+ all)
      (hstores : ∀ e ∈ stores, ∃ b ∈ all, e ∈ b.stores) : In all (behind stores bs)

/-- The instruction at a point, and the point behind it. -/
inductive Reads (target : Target) : Point → Instr → Point → Prop
  | load (e : Swap) (loads : List Swap) (b : Block) (bs : List Block) :
      Reads target (before (e :: loads) b bs) (Block.load target e).instr (before loads b bs)
  | core (b : Block) (bs : List Block) :
      Reads target (before [] b bs) b.core.instr (behind b.stores bs)
  | store (e : Swap) (stores : List Swap) (bs : List Block) :
      Reads target (behind (e :: stores) bs) (Block.store target e).instr (behind stores bs)
  | enter {b : Block} {bs : List Block} {i : Instr} {q : Point}
      (h : Reads target (before b.loads b bs) i q) : Reads target (behind [] (b :: bs)) i q

variable {p q : Point} {i : Instr} {rest dest : List Instr}

/-- The point where the code of some blocks starts. -/
theorem In.start (h : bs <:+ all) : In all (Point.behind [] bs) :=
  .behind h fun _ he => absurd he List.not_mem_nil

theorem In.entry (h : In all (Point.behind [] (b :: bs))) : In all (Point.before b.loads b bs) := by
  cases h with
  | behind hbs => exact .before hbs fun _ he => he

/-- There is an instruction at a point unless the code ends there. -/
theorem exists_reads (hp : p.code target = i :: rest) :
    ∃ q, Reads target p i q ∧ q.code target = rest := by
  have hbefore : ∀ (loads : List Swap) (b : Block) (bs : List Block),
      (before loads b bs).code target = i :: rest →
        ∃ q, Reads target (before loads b bs) i q ∧ q.code target = rest := by
    intro loads b bs h
    cases loads with
    | nil =>
        cases h
        exact ⟨_, .core b bs, rfl⟩
    | cons e loads =>
        cases h
        exact ⟨_, .load e loads b bs, rfl⟩
  cases p with
  | before loads b bs => exact hbefore loads b bs hp
  | behind stores bs =>
      cases stores with
      | cons e stores =>
          cases hp
          exact ⟨_, .store e stores bs, rfl⟩
      | nil =>
          cases bs with
          | nil => cases hp
          | cons b bs =>
              rcases hbefore b.loads b bs (codeOf_cons.symm.trans hp) with ⟨q, hq, hrest⟩
              exact ⟨q, .enter hq, hrest⟩

theorem Reads.isIn (h : Reads target p i q) (hp : In all p) : In all q := by
  induction h with
  | load e loads b bs =>
      cases hp with
      | before hbs hloads => exact .before hbs fun e' he' => hloads e' (List.mem_cons_of_mem _ he')
  | core b bs =>
      cases hp with
      | before hbs hloads =>
          refine .behind (List.IsSuffix.trans (List.suffix_cons b bs) hbs) fun e he => ?_
          exact ⟨b, hbs.mem List.mem_cons_self, he⟩
  | store e stores bs =>
      cases hp with
      | behind hbs hstores =>
          exact .behind hbs fun e' he' => hstores e' (List.mem_cons_of_mem _ he')
  | enter _ ih => exact ih hp.entry

/-- Each rest of the code is the code from a point on. -/
theorem exists_of_suffix (h : rest <:+ codeOf target all) :
    ∃ p, In all p ∧ p.code target = rest := by
  rcases h with ⟨done, hdone⟩
  have hrun : ∀ (done : List Instr) (p : Point), In all p → p.code target = done ++ rest →
      ∃ q, In all q ∧ q.code target = rest := by
    intro done
    induction done with
    | nil => exact fun p hp hcode => ⟨p, hp, hcode⟩
    | cons i done ih =>
        intro p hp hcode
        rcases exists_reads hcode with ⟨q, hreads, hq⟩
        exact ih q (hreads.isIn hp) hq
  exact hrun done (behind [] all) (.start (List.suffix_refl all)) hdone.symm

end Point

/-! ## Labels -/

theorem seek_append_unlabeled {xs ys : List Instr} (h : ∀ i ∈ xs, i.label? = none) :
    seek l (xs ++ ys) = seek l ys := by
  induction xs with
  | nil => rfl
  | cons i xs ih =>
      rcases List.forall_mem_cons.1 h with ⟨hi, hxs⟩
      have hnot : ¬ carries l i = true := by
        unfold carries
        rw [hi]
        simp
      rw [List.cons_append, seek, if_neg hnot, ih hxs]

theorem label?_core : b.core.instr.label? = b.source.instr.label? := Instr.label?_rename

theorem labelsOf_append (xs ys : List Instr) : labelsOf (xs ++ ys) = labelsOf xs ++ labelsOf ys :=
  List.filterMap_append

theorem labelsOf_unlabeled {xs : List Instr} (h : ∀ i ∈ xs, i.label? = none) : labelsOf xs = [] :=
  List.filterMap_eq_nil_iff.2 h

theorem unlabeled_loads (target : Target) (sw : List Swap) :
    ∀ i ∈ sw.map (fun e => (Block.load target e).instr), i.label? = none := by
  intro i hi
  rcases List.mem_map.1 hi with ⟨e, _, rfl⟩
  rfl

theorem unlabeled_stores (target : Target) (sw : List Swap) :
    ∀ i ∈ sw.map (fun e => (Block.store target e).instr), i.label? = none := by
  intro i hi
  rcases List.mem_map.1 hi with ⟨e, _, rfl⟩
  rfl

/-- Blocks have the labels of their instructions. -/
theorem labelsOf_codeOf : labelsOf (codeOf target bs) = labelsOf (sourcesOf bs) := by
  induction bs with
  | nil => rfl
  | cons b bs ih =>
      have hcons : ∀ (i : Instr) (rest : List Instr),
          labelsOf (i :: rest) = i.label?.toList ++ labelsOf rest := by
        intro i rest
        unfold labelsOf
        rw [List.filterMap_cons]
        cases i.label? <;> rfl
      rw [codeOf_cons, labelsOf_append, labelsOf_unlabeled (unlabeled_loads target _), hcons,
        labelsOf_append, labelsOf_unlabeled (unlabeled_stores target _), ih, label?_core]
      exact (hcons b.source.instr (sourcesOf bs)).symm

/-- A label is found at the block of the instruction that carries it. -/
theorem seek_codeOf (h : ∀ b ∈ bs, b.Tidy target low) {dest : List Instr}
    (hseek : seek l (codeOf target bs) = some dest) :
    ∃ cs, cs <:+ bs ∧ dest = codeOf target cs ∧ seek l (sourcesOf bs) = some (sourcesOf cs) := by
  induction bs with
  | nil => cases hseek
  | cons b bs ih =>
      rcases List.forall_mem_cons.1 h with ⟨hb, hbs⟩
      have hsame : carries l b.core.instr = carries l b.source.instr := by
        unfold carries
        rw [label?_core]
      have hsources : seek l (sourcesOf (b :: bs)) =
          if carries l b.source.instr then some (sourcesOf (b :: bs))
          else seek l (sourcesOf bs) := rfl
      rw [codeOf_cons, seek_append_unlabeled (unlabeled_loads target _), seek, hsame] at hseek
      rw [hsources]
      split at hseek
      · -- a label has no operands, so no load is in front of it
        rename_i hcarries
        have hlabel : b.source.instr.label? ≠ none := by
          unfold carries at hcarries
          intro hnone
          rw [hnone] at hcarries
          cases hcarries
        refine ⟨b :: bs, List.suffix_refl _, ?_, if_pos hcarries⟩
        rw [codeOf_cons, hb.no_loads hlabel]
        exact (Option.some.inj hseek).symm
      · rename_i hcarries
        rw [seek_append_unlabeled (unlabeled_stores target _)] at hseek
        rcases ih hbs hseek with ⟨cs, hcs, hdest, hsource⟩
        refine ⟨cs, hcs.trans (List.suffix_cons b bs), hdest, ?_⟩
        rw [if_neg hcarries, hsource]

/-- Jumps of spilled code lead where those of the program lead. -/
theorem targets_of_mem_codeOf {i : Instr} (h : i ∈ codeOf target bs) :
    i.targets = [] ∨ ∃ j ∈ sourcesOf bs, i.targets = j.targets := by
  rcases List.mem_map.1 h with ⟨x, hx, rfl⟩
  rcases List.mem_flatMap.1 hx with ⟨b, hb, hx⟩
  rcases List.mem_append.1 hx with hx | hx
  · rcases List.mem_map.1 hx with ⟨e, _, rfl⟩
    exact .inl rfl
  · rcases List.mem_cons.1 hx with rfl | hx
    · exact .inr ⟨_, List.mem_map_of_mem hb, Instr.targets_rename⟩
    · rcases List.mem_map.1 hx with ⟨e, _, rfl⟩
      exact .inl rfl

/-- Spilled code has a flow graph if the program has one. -/
theorem build_codeOf (hlabels : (labelsOf (sourcesOf bs)).Nodup)
    (htargets : ∀ i ∈ sourcesOf bs, ∀ l ∈ i.targets, l ∈ labelsOf (sourcesOf bs)) :
    ∃ flow, FlowGraph.build (codeOf target bs) = .ok flow := by
  rw [build_isOk_iff, labelsOf_codeOf]
  refine ⟨hlabels, fun i hi l hl => ?_⟩
  rcases targets_of_mem_codeOf hi with hnone | ⟨j, hj, heq⟩
  · rw [hnone] at hl
    cases hl
  · exact htargets j hj l (heq ▸ hl)

/-! ## Fresh temps -/

/-- A fresh temp has its value at a point: it was loaded, or is still to be stored. -/
def Held (v : Temp) : Point → Prop
  | .before loads b _ => (∃ e ∈ b.loads, e.new = v) ∧ ∀ e ∈ loads, e.new ≠ v
  | .behind stores _ => ∃ e ∈ stores, e.new = v

namespace Point

variable {p q : Point} {i : Instr} {rest dest : List Instr}

theorem not_held_entry (v : Temp) (b : Block) (bs : List Block) :
    ¬ Held v (before b.loads b bs) := by
  rintro ⟨⟨e, he, heq⟩, hnone⟩
  exact hnone e he heq

/-- Control goes to the point behind an instruction, or to where a block starts. -/
theorem Reads.next (h : ∀ b ∈ all, b.Tidy target low) (hrest : q.code target = rest)
    (hnext : Next (codeOf target all) (i :: rest) dest) :
    (i.fallsThrough = true ∧ q.code target = dest) ∨ ∃ cs, cs <:+ all ∧ codeOf target cs = dest ∧
      ∃ l ∈ i.targets, seek l (sourcesOf all) = some (sourcesOf cs) := by
  cases hnext with
  | fall hfall => exact .inl ⟨hfall, hrest⟩
  | jump hl hseek =>
      rcases seek_codeOf h hseek with ⟨cs, hcs, hdest, hsource⟩
      exact .inr ⟨cs, hcs, hdest.symm, _, hl, hsource⟩

section Fresh

variable (h : ∀ b ∈ all, b.Tidy target low)

include h

/-- A fresh temp has its value where it is used. -/
theorem Reads.held_of_use (hv : low ≤ v.id) (hsp : target.machine.stackPointer.id < low)
    (hr : Reads target p i q) (hp : In all p) (huse : v ∈ i.uses) : Held v p := by
  have hne : v ≠ target.machine.stackPointer := by
    rintro rfl
    exact absurd hsp (Nat.not_lt_of_le hv)
  induction hr with
  | load e loads b bs =>
      rw [uses_load] at huse
      exact absurd (List.mem_singleton.1 huse) hne
  | core b bs =>
      cases hp with
      | before hbs hloads =>
          -- an operand of the core that is new stands for one that was spilled, and was loaded
          have hb := h b (hbs.mem List.mem_cons_self)
          have hops := fun u hu => hb.operands u (List.mem_append_right _ hu)
          unfold Block.core at huse
          rw [Instr.uses_rename] at huse
          rcases hb.exists_swap hops hv huse with ⟨e, he, hold, rfl⟩
          exact ⟨⟨e, (hb.loads e).2 ⟨he, hold⟩, rfl⟩, fun _ he => absurd he List.not_mem_nil⟩
  | store e stores bs =>
      rw [uses_store] at huse
      rcases List.mem_cons.1 huse with rfl | huse
      · exact ⟨e, List.mem_cons_self, rfl⟩
      · exact absurd (List.mem_singleton.1 huse) hne
  | @enter b bs _ _ _ ih => exact absurd (ih hp.entry huse) (not_held_entry v b bs)

/-- A fresh temp that has its value behind an instruction that does not define it has it before. -/
theorem Reads.held_of_held (hr : Reads target p i q) (hp : In all p) (hdef : v ∉ i.defs)
    (hq : Held v q) : Held v p := by
  induction hr with
  | load e loads b bs =>
      refine ⟨hq.1, fun e' he' => ?_⟩
      rcases List.mem_cons.1 he' with rfl | he'
      · exact fun heq => hdef (heq ▸ List.mem_singleton_self _)
      · exact hq.2 e' he'
  | core b bs =>
      cases hp with
      | before hbs hloads =>
          have hb := h b (hbs.mem List.mem_cons_self)
          rcases hq with ⟨e, he, rfl⟩
          rcases (hb.stores e).1 he with ⟨hswap, hold⟩
          refine absurd ?_ hdef
          unfold Block.core
          rw [Instr.defs_rename]
          exact List.mem_map.2 ⟨e.old, hold, swapped_of_mem hb.nodup_old hswap⟩
  | store e stores bs =>
      rcases hq with ⟨e', he', heq⟩
      exact ⟨e', List.mem_cons_of_mem _ he', heq⟩
  | @enter b bs _ _ _ ih => exact absurd (ih hp.entry hdef hq) (not_held_entry v b bs)

/-- Where a fresh temp is live it has its value. -/
theorem held_of_live (hv : low ≤ v.id) (hsp : target.machine.stackPointer.id < low)
    {here : List Instr} (hlive : Live (codeOf target all) v here) (hp : In all p)
    (hhere : p.code target = here) : Held v p := by
  induction hlive generalizing p with
  | use huse =>
      rcases exists_reads hhere with ⟨q, hr, _⟩
      exact hr.held_of_use h hv hsp hp huse
  | through hdef hnext _ ih =>
      rcases exists_reads hhere with ⟨q, hr, hrest⟩
      rcases Reads.next h hrest hnext with ⟨_, hdest⟩ | ⟨cs, hcs, hdest, _⟩
      · exact hr.held_of_held h hp hdef (ih (hr.isIn hp) hdest)
      · -- no fresh temp has its value where a block starts
        rcases ih (p := behind [] cs) (.start hcs) hdest with ⟨e, he, _⟩
        cases he

theorem held_of_liveOut (hv : low ≤ v.id) (hsp : target.machine.stackPointer.id < low)
    (hlive : LiveOut (codeOf target all) v (i :: rest)) (hr : Reads target p i q)
    (hp : In all p) (hrest : q.code target = rest) : Held v q := by
  rcases hlive with ⟨dest, hnext, hlive⟩
  rcases Reads.next h hrest hnext with ⟨_, hdest⟩ | ⟨cs, hcs, hdest, _⟩
  · exact held_of_live h hv hsp hlive (hr.isIn hp) hdest
  · rcases held_of_live h hv hsp hlive (p := behind [] cs) (.start hcs) hdest with ⟨e, he, _⟩
    cases he

/-- What is defined while a fresh temp has its value is defined in its block. -/
theorem Reads.defs_of_held (hr : Reads target p i q) (hp : In all p) (hq : Held v q)
    (ht : t ∈ i.defs) : ∃ b bs, b :: bs <:+ all ∧ v ∈ b.fresh ∧
      (t ∈ b.fresh ∨ t ∈ b.source.instr.defs) := by
  induction hr with
  | load e loads b bs =>
      cases hp with
      | before hbs hloads =>
          have hb := h b (hbs.mem List.mem_cons_self)
          rcases hq.1 with ⟨e', he', rfl⟩
          rw [defs_load] at ht
          cases List.mem_singleton.1 ht
          exact ⟨b, bs, hbs, hb.mem_fresh_of_load he',
            .inl (hb.mem_fresh_of_load (hloads e List.mem_cons_self))⟩
  | core b bs =>
      cases hp with
      | before hbs hloads =>
          have hb := h b (hbs.mem List.mem_cons_self)
          rcases hq with ⟨e', he', rfl⟩
          unfold Block.core at ht
          rw [Instr.defs_rename] at ht
          refine ⟨b, bs, hbs, hb.mem_fresh_of_store he', ?_⟩
          rcases hb.mem_map_swapped ht with hold | ⟨e, he, _, rfl⟩
          · exact .inr hold.1
          · exact .inl (List.mem_map_of_mem he)
  | store e stores bs =>
      rw [defs_store] at ht
      cases ht
  | enter _ ih => exact ih hp.entry hq ht

end Fresh

/-! ## Registers -/

section Register

variable (h : ∀ b ∈ all, b.Tidy target low) (hr : r ∈ target.machine.allocatable)
  (hsp : target.machine.stackPointer.id < low)

include hr hsp

theorem register_lt : target.machine.isRegister r = true ∧ r.id < low ∧
    r ≠ target.machine.stackPointer := by
  rcases List.mem_map.1 hr with ⟨n, hn, rfl⟩
  have hlt := List.mem_range.1 hn
  unfold Machine.stackPointer at hsp ⊢
  refine ⟨Machine.isRegister_iff.2 (Nat.lt_add_right 2 hlt), ?_, ?_⟩
  · dsimp only at hsp ⊢
    omega
  · intro heq
    have hid := congrArg Temp.id heq
    dsimp only at hid
    omega

include h

/-- What an instruction of the spilled code has to do with a register: an access does not use it,
and a core treats it as the instruction of the program does. -/
theorem Reads.register (hreads : Reads target p i q) (hp : In all p) :
    (r ∉ i.uses ∧ i.targets = [] ∧ q.source = p.source) ∨
      ∃ j, p.source = j :: q.source ∧ (r ∈ i.uses ↔ r ∈ j.uses) ∧ (r ∈ i.defs ↔ r ∈ j.defs) ∧
        i.targets = j.targets ∧ i.fallsThrough = j.fallsThrough := by
  rcases register_lt hr hsp with ⟨hreg, hrlow, hne⟩
  induction hreads with
  | load e loads b bs =>
      refine .inl ⟨?_, rfl, rfl⟩
      rw [uses_load, List.mem_singleton]
      exact hne
  | core b bs =>
      cases hp with
      | before hbs hloads =>
          have hb := h b (hbs.mem List.mem_cons_self)
          refine .inr ⟨b.source.instr, rfl, ?_, ?_, Instr.targets_rename, Instr.fallsThrough_rename⟩
          · unfold Block.core
            rw [Instr.uses_rename]
            exact hb.mem_map_swapped_register hreg hrlow
          · unfold Block.core
            rw [Instr.defs_rename]
            exact hb.mem_map_swapped_register hreg hrlow
  | store e stores bs =>
      cases hp with
      | behind hbs hstores =>
          refine .inl ⟨?_, rfl, rfl⟩
          rcases hstores e List.mem_cons_self with ⟨b, hb, he⟩
          have hle := (h b hb).low_le e (((h b hb).stores e).1 he).1
          -- what is stored is a fresh temp
          rw [uses_store, List.mem_cons, List.mem_singleton, not_or]
          refine ⟨?_, hne⟩
          rintro rfl
          exact absurd hrlow (Nat.not_lt_of_le hle)
  | enter _ ih => exact ih hp.entry

/-- A register is live in spilled code only where it is live in the program. -/
theorem live_source {here : List Instr} (hlive : Live (codeOf target all) r here) (hp : In all p)
    (hhere : p.code target = here) : Live (sourcesOf all) r p.source := by
  -- an access has nothing to do with the register, and a core stands for its instruction
  induction hlive generalizing p with
  | use huse =>
      rcases exists_reads hhere with ⟨q, hreads, _⟩
      rcases hreads.register h hr hsp hp with ⟨hnot, _⟩ | ⟨j, hj, huses, _⟩
      · exact absurd huse hnot
      · rw [hj]
        exact .use (huses.1 huse)
  | through hdef hnext _ ih =>
      rcases exists_reads hhere with ⟨q, hreads, hrest⟩
      rcases hreads.register h hr hsp hp with ⟨_, hnone, heq⟩ | ⟨j, hj, _, hdefs, htargets, hfalls⟩
      · rcases Reads.next h hrest hnext with ⟨_, hdest⟩ | ⟨cs, _, _, l, hl, _⟩
        · exact heq ▸ ih (hreads.isIn hp) hdest
        · rw [hnone] at hl
          cases hl
      · have hdef' := fun hmem => hdef (hdefs.2 hmem)
        rcases Reads.next h hrest hnext with ⟨hfall, hdest⟩ | ⟨cs, hcs, hdest, l, hl, hseek⟩
        · have hlive := ih (hreads.isIn hp) hdest
          rw [hj]
          exact .through hdef' (.fall (hfalls ▸ hfall)) hlive
        · have hlive := ih (p := behind [] cs) (.start hcs) hdest
          rw [hj]
          exact .through hdef' (.jump (htargets ▸ hl) hseek) hlive

/-- A register that is live behind an access is live at the instruction of the block, and one that
is live behind a core is live behind the instruction. -/
theorem liveOut_source (hlive : LiveOut (codeOf target all) r (i :: rest))
    (hreads : Reads target p i q) (hp : In all p) (hrest : q.code target = rest) :
    Live (sourcesOf all) r p.source ∨ LiveOut (sourcesOf all) r p.source := by
  rcases hlive with ⟨dest, hnext, hlive⟩
  rcases hreads.register h hr hsp hp with ⟨_, hnone, heq⟩ | ⟨j, hj, _, _, htargets, hfalls⟩
  · rcases Reads.next h hrest hnext with ⟨_, hdest⟩ | ⟨cs, _, _, l, hl, _⟩
    · exact .inl (heq ▸ live_source h hr hsp hlive (hreads.isIn hp) hdest)
    · rw [hnone] at hl
      cases hl
  · rw [hj]
    rcases Reads.next h hrest hnext with ⟨hfall, hdest⟩ | ⟨cs, hcs, hdest, l, hl, hseek⟩
    · exact .inr ⟨_, .fall (hfalls ▸ hfall), live_source h hr hsp hlive (hreads.isIn hp) hdest⟩
    · exact .inr ⟨_, .jump (htargets ▸ hl) hseek,
        live_source h hr hsp hlive (p := behind [] cs) (.start hcs) hdest⟩

end Register

/-- What defines a fresh temp belongs to the block of the temp. -/
theorem Reads.source_of_def (h : ∀ b ∈ all, b.Tidy target low) (hv : low ≤ v.id)
    (hr : Reads target p i q) (hp : In all p) (hdef : v ∈ i.defs) :
    ∃ b bs, b :: bs <:+ all ∧ v ∈ b.fresh ∧ p.source = sourcesOf (b :: bs) := by
  induction hr with
  | load e loads b bs =>
      cases hp with
      | before hbs hloads =>
          have hb := h b (hbs.mem List.mem_cons_self)
          rw [defs_load] at hdef
          cases List.mem_singleton.1 hdef
          exact ⟨b, bs, hbs, hb.mem_fresh_of_load (hloads e List.mem_cons_self), rfl⟩
  | core b bs =>
      cases hp with
      | before hbs hloads =>
          have hb := h b (hbs.mem List.mem_cons_self)
          have hops := fun u hu => hb.operands u (List.mem_append_left _ hu)
          unfold Block.core at hdef
          rw [Instr.defs_rename] at hdef
          rcases hb.exists_swap hops hv hdef with ⟨e, he, _, rfl⟩
          exact ⟨b, bs, hbs, List.mem_map_of_mem he, rfl⟩
  | store e stores bs =>
      rw [defs_store] at hdef
      cases hdef
  | enter _ ih => exact ih hp.entry hdef

end Point

/-! ## Conflicts -/

section Conflicts

variable {m : Machine} {d o : Temp} (h : ∀ b ∈ all, b.Tidy target low)
  (hsp : target.machine.stackPointer.id < low)

include h hsp

/-- What is defined while a fresh temp is live is defined in its block. -/
theorem clash_fresh (hclash : Clash m (codeOf target all) d o) (ho : low ≤ o.id) :
    ∃ b bs, b :: bs <:+ all ∧ o ∈ b.fresh ∧ (d ∈ b.fresh ∨ d ∈ b.source.instr.defs) := by
  rcases hclash with ⟨i, rest, hsuffix, hat⟩
  rcases Point.exists_of_suffix hsuffix with ⟨p, hp, hcode⟩
  rcases Point.exists_reads hcode with ⟨q, hreads, hrest⟩
  exact hreads.defs_of_held h hp (Point.held_of_liveOut h ho hsp hat.live hreads hp hrest)
    hat.defined

/-- A register that is live where a fresh temp is defined is live at the instruction of the block,
or behind it. -/
theorem clash_register (hclash : Clash m (codeOf target all) d o) (hd : low ≤ d.id)
    (ho : o ∈ target.machine.allocatable) : ∃ b bs, b :: bs <:+ all ∧ d ∈ b.fresh ∧
      (Live (sourcesOf all) o (sourcesOf (b :: bs)) ∨
        LiveOut (sourcesOf all) o (sourcesOf (b :: bs))) := by
  rcases hclash with ⟨i, rest, hsuffix, hat⟩
  rcases Point.exists_of_suffix hsuffix with ⟨p, hp, hcode⟩
  rcases Point.exists_reads hcode with ⟨q, hreads, hrest⟩
  rcases hreads.source_of_def h hd hp hat.defined with ⟨b, bs, hbs, hfresh, hsource⟩
  have hlive := Point.liveOut_source h ho hsp hat.live hreads hp hrest
  exact ⟨b, bs, hbs, hfresh, hsource ▸ hlive⟩

end Conflicts

end TreeCompiler
