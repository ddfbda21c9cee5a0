import TreeCompiler.Machine.TwoRegisters
import TreeCompiler.Proofs.BlockLiveness
import TreeCompiler.Proofs.Coloring.Avoided
import TreeCompiler.Proofs.Decided

/-!
# Settled — when allocation comes to an end

If each instruction fits into the registers on its own (`Fits`), a temp made by spilling has too few
neighbors among the registers and its like to be in the way (`few_neighbors`), and it is chosen
last.  So each round that spills moves at least one more temp of the program to the frame, and
allocation succeeds within its limit (`allocate_settles`).
-/

namespace TreeCompiler

open FlowGraph Coloring Interference Allocation

variable {m : Machine} {target : Target} {options : AllocOptions} {code : List Instr}
  {all bs cs : List Block} {b c : Block} {low k : Nat} {t u v : Temp} {ts : List Temp}
  {g : Interference} {r : ColorResult}

/-! ## Code that fits -/

/-- A register that an instruction has to leave alone, or that it defines. -/
structure Busy (m : Machine) (code : List Instr) (i : Instr) (rest : List Instr) (r : Temp) :
    Prop where
  allocatable : r ∈ m.allocatable
  busy : Live code r (i :: rest) ∨ LiveOut code r (i :: rest) ∨ r ∈ i.defs

/-- At each instruction that mentions temps that are no registers, these and the busy registers are
together no more than there are colors. -/
def Fits (m : Machine) (code : List Instr) : Prop :=
  ∀ i rest, (i :: rest) <:+ code → ∀ busy temps : List Temp, busy.Nodup → temps.Nodup → temps ≠ [] →
    (∀ r ∈ busy, Busy m code i rest r) →
    (∀ t ∈ temps, t ∈ i.defs ++ i.uses ∧ m.isRegister t = false) →
    busy.length + temps.length ≤ m.colors

namespace Allocation

theorem mem_unallocated : t ∈ unallocated m code ↔ Mentions code t ∧ m.isRegister t = false := by
  unfold unallocated Mentions
  rw [SortedSet.mem_ofList, List.mem_filter, List.mem_flatMap, Bool.not_eq_true']

end Allocation

/-- The registers that instruction number `p` has to leave alone or defines, read off live sets. -/
def busyRegisters (m : Machine) (live : LiveSets) (p : Nat) (i : Instr) : List Temp :=
  m.allocatable.filter fun r =>
    r ∈ (live.liveIn.get p).toList || r ∈ (live.liveOut.get p).toList || r ∈ i.defs

/-- Whether code fits, as the analysis of its liveness tells. -/
def checkFits (m : Machine) (code : List Instr) : Bool :=
  match (FlowGraph.build code).toOption.bind fun flow => (Liveness.analyze flow).toOption with
  | none => false
  | some live => code.zipIdx.all fun e =>
      (unallocated m [e.1]).isEmpty || decide ((busyRegisters m live.toLiveSets e.2 e.1).length
        + (unallocated m [e.1]).size ≤ m.colors)

theorem fits_of_checkFits (h : checkFits m code = true) : Fits m code := by
  unfold checkFits at h
  cases hbuild : FlowGraph.build code with
  | error e =>
      rw [hbuild] at h
      cases h
  | ok flow =>
      rcases Liveness.analyze_spec (of_build hbuild) with ⟨live, hlive, hin, hout⟩
      simp only [hbuild, hlive, Except.toOption, Option.bind_some, List.all_eq_true,
        Bool.or_eq_true, decide_eq_true_eq] at h
      intro i rest hsuffix busy temps hbusy htemps hne hbusyMem htempsMem
      rcases suffix_cons_iff.1 hsuffix with ⟨p, hp, rfl⟩
      have hdrop : code.drop p = i :: code.drop (p + 1) := by
        rw [List.drop_eq_getElem?_toList_append, hp]
        rfl
      have hown : temps ⊆ (unallocated m [i]).toList := by
        intro t ht
        rcases htempsMem t ht with ⟨hmem, hreg⟩
        exact mem_unallocated.2 ⟨⟨i, List.mem_singleton_self i, hmem⟩, hreg⟩
      have hsub : busy ⊆ busyRegisters m live.toLiveSets p i := by
        intro r hr
        rcases hbusyMem r hr with ⟨halloc, hcases⟩
        unfold busyRegisters
        rw [List.mem_filter, Bool.or_eq_true, Bool.or_eq_true, decide_eq_true_eq, decide_eq_true_eq,
          decide_eq_true_eq, or_assoc]
        rw [← hdrop] at hcases
        exact ⟨halloc, hcases.imp (hin p r).2 (Or.imp_left (hout p r).2)⟩
      rcases h (i, p) (List.mem_zipIdx_iff_getElem?.2 hp) with hnone | hle
      · refine absurd (List.eq_nil_iff_forall_not_mem.2 fun t ht => ?_) hne
        have hnil : (unallocated m [i]).toList = [] := List.isEmpty_iff.1 hnone
        have hmem := hown ht
        rw [hnil] at hmem
        cases hmem
      · exact Nat.le_trans (Nat.add_le_add (hbusy.length_le_of_subset hsub)
          (htemps.length_le_of_subset hown)) hle

/-! ## Neighbors of fresh temps -/

/-- A fresh temp belongs to one block. -/
theorem eq_of_mem_fresh (hnodup : (freshOf all).Nodup) (hb : b :: bs <:+ all) (hc : c :: cs <:+ all)
    (hvb : v ∈ b.fresh) (hvc : v ∈ c.fresh) : b :: bs = c :: cs := by
  have hmem : ∀ {d : Block} {ds rest : List Block}, d :: ds <:+ rest → v ∈ d.fresh →
      v ∈ freshOf rest := fun hd hv => mem_freshOf.2 ⟨_, hd.mem List.mem_cons_self, hv⟩
  induction all with
  | nil => cases List.suffix_nil.1 hb
  | cons a all ih =>
      unfold freshOf at hnodup
      rw [List.flatMap_cons] at hnodup
      rcases List.nodup_append.1 hnodup with ⟨_, hrest, hdisjoint⟩
      rcases List.suffix_cons_iff.1 hb with heqb | hbrest
      · rcases List.suffix_cons_iff.1 hc with heqc | hcrest
        · exact heqb.trans heqc.symm
        · cases heqb
          exact absurd rfl (hdisjoint v hvb v (hmem hcrest hvc))
      · rcases List.suffix_cons_iff.1 hc with heqc | hcrest
        · cases heqc
          exact absurd rfl (hdisjoint v hvc v (hmem hbrest hvb))
        · exact ih hrest hbrest hcrest

theorem mem_allocatable (hreg : m.isRegister t = true) (hreserved : m.isReserved t = false) :
    t ∈ m.allocatable :=
  Machine.mem_allocatable_iff.2 (Machine.lt_colors hreg hreserved)

/-- Blocks of a round: fresh temps are behind the temps of the program, which are behind the
registers. -/
structure Blocks (target : Target) (low k : Nat) (all : List Block) : Prop
    extends Tidy target low k all where
  registers : target.machine.stackPointer.id < low
  low_le : low ≤ k

namespace Blocks

variable (h : Blocks target low k all)

include h

theorem le_of_mem_freshOf (hv : v ∈ freshOf all) : low ≤ v.id := by
  rcases mem_freshOf.1 hv with ⟨b, hb, hmem⟩
  exact (h.block b hb).le_of_mem_fresh hmem

theorem not_isRegister (hv : low ≤ v.id) : target.machine.isRegister v = false := by
  have hsp := h.registers
  unfold Machine.stackPointer at hsp
  rw [Bool.eq_false_iff]
  intro hreg
  have hlt := Machine.isRegister_iff.1 hreg
  dsimp only at hsp
  omega

/-- A neighbor of a fresh temp is a fresh temp of its block, or a register that is busy there. -/
theorem neighbor_cases (hportrays : g.Portrays target.machine (codeOf target all))
    (hb : b :: bs <:+ all) (hv : v ∈ b.fresh) (hinterferes : g.interferes v u = true)
    (hu : target.machine.isRegister u = true ∨ u ∈ freshOf all) :
    (target.machine.isRegister u = false ∧ u ∈ b.fresh.erase v) ∨
      (target.machine.isRegister u = true ∧
        Busy target.machine (sourcesOf all) b.source.instr (sourcesOf bs) u) := by
  have hlow := (h.block b (hb.mem List.mem_cons_self)).le_of_mem_fresh hv
  have hsource : ∀ {d}, low ≤ Temp.id d → ∀ {c cs}, c :: cs <:+ all → d ∉ c.source.instr.defs := by
    intro d hd c cs hc hdef
    have hlt := (h.block c (hc.mem List.mem_cons_self)).operands d (List.mem_append_left _ hdef)
    exact absurd hlt (Nat.not_lt_of_le hd)
  have howner : ∀ {c cs}, c :: cs <:+ all → v ∈ c.fresh → b = c ∧ bs = cs := fun hc hmem =>
    List.cons_eq_cons.1 (eq_of_mem_fresh h.nodup_fresh hb hc hv hmem)
  -- a fresh neighbor is in the same block
  have hfresh : u ∈ freshOf all → u ≠ v → (∃ c cs, c :: cs <:+ all ∧ v ∈ c.fresh ∧ u ∈ c.fresh) →
      target.machine.isRegister u = false ∧ u ∈ b.fresh.erase v := by
    rintro hmem hne ⟨c, cs, hc, hvc, huc⟩
    rcases howner hc hvc with ⟨rfl, rfl⟩
    exact ⟨h.not_isRegister (h.le_of_mem_freshOf hmem), (List.mem_erase_of_ne hne).2 huc⟩
  rcases (hportrays.edge v u).1 hinterferes with ⟨_, halloc, _⟩ | hclash | hclash
  · have hreg := (Point.register_lt halloc h.registers).1
    rw [h.not_isRegister hlow] at hreg
    cases hreg
  · -- the fresh temp is defined where its neighbor is live
    have ⟨_, _, _, hat⟩ := hclash
    have hreserved := hat.notReserved.2
    rcases hu with hreg | hmem
    · rcases clash_register h.block h.registers hclash hlow (mem_allocatable hreg hreserved) with
        ⟨c, cs, hc, hvc, hlive⟩
      rcases howner hc hvc with ⟨rfl, rfl⟩
      exact .inr ⟨hreg, mem_allocatable hreg hreserved, hlive.imp_right .inl⟩
    · rcases clash_fresh h.block h.registers hclash (h.le_of_mem_freshOf hmem) with
        ⟨c, cs, hc, huc, hvc | hvc⟩
      · exact .inl (hfresh hmem hat.ne ⟨c, cs, hc, hvc, huc⟩)
      · exact absurd hvc (hsource hlow hc)
  · -- the neighbor is defined where the fresh temp is live
    have ⟨_, _, _, hat⟩ := hclash
    have hreserved := hat.notReserved.1
    rcases clash_fresh h.block h.registers hclash hlow with ⟨c, cs, hc, hvc, hdef⟩
    rcases hu with hreg | hmem
    · rcases howner hc hvc with ⟨rfl, rfl⟩
      refine .inr ⟨hreg, mem_allocatable hreg hreserved,
        .inr (.inr (hdef.resolve_left fun huc => ?_))⟩
      have hnot := h.not_isRegister ((h.block b (hb.mem List.mem_cons_self)).le_of_mem_fresh huc)
      rw [hreg] at hnot
      cases hnot
    · have huc := hdef.resolve_right (hsource (h.le_of_mem_freshOf hmem) hc)
      exact .inl (hfresh hmem hat.ne.symm ⟨c, cs, hc, hvc, huc⟩)

/-- A fresh temp has fewer neighbors among registers and fresh temps than there are colors. -/
theorem few_neighbors (hportrays : g.Portrays target.machine (codeOf target all))
    (hfits : Fits target.machine (sourcesOf all)) (hts : ∀ u ∈ ts, u ∈ freshOf all)
    (hv : v ∈ freshOf all) :
    (neighborsAmong target.machine g ts v).length < target.machine.colors := by
  rcases mem_freshOf.1 hv with ⟨b, hmem, hvb⟩
  rcases List.append_of_mem hmem with ⟨before, bs, hall⟩
  have hb : b :: bs <:+ all := ⟨before, hall.symm⟩
  have hbt := h.block b hmem
  have hcases : ∀ u ∈ neighborsAmong target.machine g ts v,
      (target.machine.isRegister u = false ∧ u ∈ b.fresh.erase v) ∨
        (target.machine.isRegister u = true ∧
          Busy target.machine (sourcesOf all) b.source.instr (sourcesOf bs) u) := by
    intro u hu
    unfold neighborsAmong at hu
    rw [List.mem_filter, Bool.and_eq_true, Bool.or_eq_true, decide_eq_true_eq] at hu
    exact h.neighbor_cases hportrays hb hvb hu.2.1 (hu.2.2.imp_right (hts u))
  have hnodup : (neighborsAmong target.machine g ts v).Nodup :=
    hportrays.built.wellFormed.nodup.filter _
  -- the fresh neighbors leave out the temp itself
  have hown : ((neighborsAmong target.machine g ts v).filter
      fun u => !target.machine.isRegister u).length ≤ b.fresh.length - 1 := by
    rw [← List.length_erase_of_mem hvb]
    refine (hnodup.filter _).length_le_of_subset fun u hu => ?_
    rcases List.mem_filter.1 hu with ⟨hu, hreg⟩
    rcases hcases u hu with ⟨_, herase⟩ | ⟨hreg', _⟩
    · exact herase
    · rw [hreg'] at hreg
      cases hreg
  -- the others are busy around the instruction, which leaves room for the temps it has spilled
  have hregisters : ∀ u ∈ (neighborsAmong target.machine g ts v).filter target.machine.isRegister,
      Busy target.machine (sourcesOf all) b.source.instr (sourcesOf bs) u := by
    intro u hu
    rcases List.mem_filter.1 hu with ⟨hu, hreg⟩
    rcases hcases u hu with ⟨hreg', _⟩ | ⟨_, hbusy⟩
    · rw [hreg] at hreg'
      cases hreg'
    · exact hbusy
  have hold : ∀ t ∈ b.swaps.map Swap.old,
      t ∈ b.source.instr.defs ++ b.source.instr.uses ∧ target.machine.isRegister t = false := by
    intro t ht
    rcases List.mem_map.1 ht with ⟨e, he, rfl⟩
    exact ⟨hbt.mentioned e he, hbt.notRegister e he⟩
  have hne : b.swaps.map Swap.old ≠ [] := by
    intro hnil
    have hnone : b.fresh = [] := List.map_eq_nil_iff.2 (List.map_eq_nil_iff.1 hnil)
    rw [hnone] at hvb
    cases hvb
  have hroom := hfits b.source.instr (sourcesOf bs) (hb.map fun b : Block => b.source.instr) _ _
    (hnodup.filter _) hbt.nodup_old hne hregisters hold
  have hpos : 0 < b.fresh.length := List.length_pos_of_mem hvb
  have hlength : b.fresh.length = (b.swaps.map Swap.old).length := by
    unfold Block.fresh
    rw [List.length_map, List.length_map]
  have hsum := List.length_eq_length_filter_add (l := neighborsAmong target.machine g ts v)
    target.machine.isRegister
  omega

end Blocks

/-! ## Rounds -/

section Rounds

variable {frame : Frame} {n : Namer} {p : Progress}

/-- What a round starts with: the blocks of the program, with fresh temps in the place of the temps
that were spilled. -/
structure Round (m : Machine) (code : List Instr) (frame : Frame) (n : Namer) (p : Progress)
    (all : List Block) : Prop where
  blocks : Blocks ⟨m, p.frame.sizeSymbol⟩ n.nextTemp p.namer.nextTemp all
  sources : all.map Block.source = itemsOf code 0
  instrs : p.instrs = codeOf ⟨m, p.frame.sizeSymbol⟩ all
  introduced : ∀ t, t ∈ p.introduced ↔ t ∈ freshOf all
  nodup : p.spilled.Nodup
  spilled : ∀ t ∈ p.spilled, t ∈ unallocated m code
  /-- A spilled temp no longer occurs. -/
  moved : ∀ t ∈ p.spilled, ∀ b ∈ all, t ∈ b.source.instr.defs ++ b.source.instr.uses →
    ∃ e ∈ b.swaps, e.old = t
  frame : p.frame = frame.allocSlots p.spilled.length

theorem sourcesOf_of_sources (h : all.map Block.source = itemsOf code 0) :
    sourcesOf all = code := by
  have hmap := congrArg instrsOf h
  rw [instrsOf_itemsOf] at hmap
  rw [← hmap]
  unfold instrsOf sourcesOf
  rw [List.map_map]
  rfl

/-- No more temps are spilled than there are. -/
theorem length_le_unallocated (hnodup : ts.Nodup) (h : ∀ t ∈ ts, t ∈ unallocated m code) :
    ts.length ≤ (unallocated m code).size :=
  hnodup.length_le_of_subset h

namespace Round

variable (h : Round m code frame n p all)

include h

/-- A temp of the code of a round that is neither a register nor fresh is one of the program that
was not spilled. -/
theorem of_mentions (hmem : Mentions p.instrs t) (hreg : m.isRegister t = false)
    (hfresh : t ∉ freshOf all) : t ∈ unallocated m code ∧ t ∉ p.spilled := by
  rw [h.instrs] at hmem
  rcases hmem with ⟨i, hi, ht⟩
  rcases List.mem_map.1 hi with ⟨x, hx, rfl⟩
  rcases List.mem_flatMap.1 hx with ⟨b, hb, hx⟩
  have hbt := h.blocks.block b hb
  have hsp : t ≠ m.stackPointer := ne_stackPointer hreg
  have hnew : ∀ e ∈ b.swaps, t ≠ e.new := by
    rintro e he rfl
    exact hfresh (mem_freshOf.2 ⟨b, hb, List.mem_map_of_mem he⟩)
  -- an access mentions only a fresh temp and the stack pointer
  have hcore : x = b.core := by
    rcases List.mem_append.1 hx with hx | hx
    · rcases List.mem_map.1 hx with ⟨e, he, rfl⟩
      rcases Block.mem_operands_load ht with heq | heq
      · exact absurd heq (hnew e ((hbt.loads e).1 he).1)
      · exact absurd heq hsp
    · rcases List.mem_cons.1 hx with rfl | hx
      · rfl
      · rcases List.mem_map.1 hx with ⟨e, he, rfl⟩
        rcases Block.mem_operands_store ht with heq | heq
        · exact absurd heq (hnew e ((hbt.stores e).1 he).1)
        · exact absurd heq hsp
  rw [hcore, Block.core, Instr.defs_rename, Instr.uses_rename, ← List.map_append] at ht
  rcases hbt.mem_map_swapped ht with ⟨hold, hself⟩ | ⟨e, he, _, heq⟩
  · refine ⟨mem_unallocated.2 ⟨⟨b.source.instr, ?_, hold⟩, hreg⟩, fun hspilled => ?_⟩
    · rw [← sourcesOf_of_sources h.sources]
      exact List.mem_map_of_mem hb
    · rcases h.moved t hspilled b hb hold with ⟨e, he, rfl⟩
      rw [swapped_of_mem hbt.nodup_old he] at hself
      exact hnew e he hself.symm
  · exact absurd heq.symm (hnew e he)

/-- A round spills temps of the program that were not spilled before. -/
theorem spills (hfits : Fits m code)
    (hcolor : colorCode m options p.introduced p.instrs = .ok (g, r)) :
    (p.spilled ++ r.spilled.toList).Nodup ∧ ∀ t ∈ r.spilled.toList, t ∈ unallocated m code := by
  have hblocks := h.blocks
  rcases exists_of_colorCode hcolor with ⟨-, hportrays, hrun⟩
  have hportrays' : g.Portrays m (codeOf ⟨m, p.frame.sizeSymbol⟩ all) := h.instrs ▸ hportrays
  have hfits' : Fits m (sourcesOf all) := (sourcesOf_of_sources h.sources).symm ▸ hfits
  have hspilled : ∀ t ∈ r.spilled.toList, t ∈ unallocated m code ∧ t ∉ p.spilled := by
    intro t ht
    rcases spilled_colorCode hcolor ht with ⟨hmentions, hreg⟩
    refine h.of_mentions hmentions hreg fun hfresh => ?_
    refine not_spilled_of_avoided hportrays.built (fun u hu => ?_) hrun
      ((h.introduced t).2 hfresh) ht
    exact hblocks.few_neighbors hportrays' hfits' (fun w hw => (h.introduced w).1 hw)
      ((h.introduced u).1 hu)
  refine ⟨List.nodup_append.2 ⟨h.nodup, r.spilled.nodup, ?_⟩, fun t ht => (hspilled t ht).1⟩
  rintro t ht u hu rfl
  exact (hspilled t hu).2 ht

/-- The slots of the temps that a round spills are in reach. -/
theorem spillable (hslots : ∀ j : Nat, 1 ≤ j → j ≤ (unallocated m code).size →
      isImm32 (frame.offset - j * frame.wordSize) = true)
    (htemps : ∀ t, Mentions code t → t.id < n.nextTemp)
    (hnodup : (p.spilled ++ ts).Nodup) (hts : ∀ t ∈ ts, t ∈ unallocated m code) :
    Spillable ⟨m, p.frame.sizeSymbol⟩ n.nextTemp (slotsOf p.frame ts) := by
  have hlength := length_le_unallocated hnodup (List.forall_mem_append.2 ⟨h.spilled, hts⟩)
  rw [List.length_append] at hlength
  have hfst := slotsOf_fst p.frame ts
  have hmem : ∀ e ∈ slotsOf p.frame ts, Mentions code e.1 ∧ m.isRegister e.1 = false :=
    fun e he => mem_unallocated.1 (hts _ (hfst ▸ List.mem_map_of_mem he))
  refine ⟨hfst.symm ▸ (List.nodup_append.1 hnodup).2.1, fun e he => htemps _ (hmem e he).1,
    fun e he => (hmem e he).2, fun e he => ?_⟩
  -- the slots are those behind the slots of the temps that were spilled before
  have he : e ∈ slotsOf frame (p.spilled ++ ts) := by
    rw [slotsOf_append, ← h.frame]
    exact List.mem_append_right _ he
  obtain ⟨j, hj, hle, heq⟩ := mem_slotsOf he
  rw [List.length_append] at hle
  have hoffset := hslots j hj (by omega)
  rwa [heq, wrap64_of_isImm32 hoffset]

/-- After a round, a spilled temp that an instruction mentions has a swap there, from this round or
from one before. -/
theorem moved_spillBlocks {k : Nat} {b' : Block}
    (hb' : b' ∈ (spillBlocks (slotsOf p.frame ts) all k).blocks) (ht : t ∈ p.spilled ++ ts)
    (hop : t ∈ b'.source.instr.defs ++ b'.source.instr.uses) : ∃ e ∈ b'.swaps, e.old = t := by
  rcases mem_spillBlocks hb' with ⟨b, hb, k', _, rfl⟩
  by_cases hold : ∃ e ∈ b.swaps, e.old = t
  · rcases hold with ⟨e, he, heq⟩
    exact ⟨e, List.mem_append_left _ he, heq⟩
  · rcases List.mem_append.1 ht with hspilled | hnew
    · exact absurd (h.moved t hspilled b hb hop) hold
    · -- the core mentions the temp still, and so it gets a swap now
      have hself : swapped b.swaps t = t :=
        swapped_of_forall_ne fun e he heq => hold ⟨e, he, heq⟩
      have hcore : t ∈ b.core.instr.defs ++ b.core.instr.uses := by
        unfold Block.core
        rw [Instr.defs_rename, Instr.uses_rename, ← List.map_append]
        exact List.mem_map.2 ⟨t, hop, hself⟩
      rw [← slotsOf_fst p.frame ts] at hnew
      rcases List.mem_map.1 hnew with ⟨⟨t', offset⟩, hplace, rfl⟩
      rcases exists_swap (k := k') hplace hcore with ⟨e, he, heq, _⟩
      exact ⟨e, List.mem_append_right _ he, heq⟩

/-- The code of the next round. -/
theorem next (hslots : ∀ j : Nat, 1 ≤ j → j ≤ (unallocated m code).size →
      isImm32 (frame.offset - j * frame.wordSize) = true)
    (htemps : ∀ t, Mentions code t → t.id < n.nextTemp)
    (hnodup : (p.spilled ++ ts).Nodup) (hts : ∀ t ∈ ts, t ∈ unallocated m code) :
    ∃ r f n' all', p.frame.spill m p.instrs ts p.namer = (.ok r, f, n') ∧
      Round m code frame n
        { instrs := r.instrs, frame := f, namer := n'
          introduced := p.introduced.union (.ofList r.fresh), spilled := p.spilled ++ ts }
            all' := by
  rcases h.blocks with ⟨htidy, hregisters, hlow⟩
  have hspillable := h.spillable hslots htemps hnodup hts
  have hlt : ∀ t ∈ ts, t.id < n.nextTemp := fun t ht =>
    htemps t (mem_unallocated.1 (hts t ht)).1
  have hframe : m.framePointer.id < p.namer.nextTemp :=
    Nat.lt_of_lt_of_le (Nat.lt_of_succ_lt hregisters) hlow
  have hspill := p.frame.spill_eq m (itemsOfBlocks ⟨m, p.frame.sizeSymbol⟩ all) p.namer
    (List.nodup_append.1 hnodup).2.1 (fun t ht => Nat.lt_of_lt_of_le (hlt t ht) hlow) hframe
  have hinstrs : p.instrs = instrsOf (itemsOfBlocks ⟨m, p.frame.sizeSymbol⟩ all) := h.instrs
  rw [spillItems_blocks hspillable htidy.block, ← hinstrs] at hspill
  exact ⟨_, _, _, (spillBlocks (slotsOf p.frame ts) all p.namer.nextTemp).blocks, hspill, {
    blocks := by
      dsimp only
      rw [Frame.sizeSymbol_allocSlots]
      exact ⟨htidy.spill hspillable hlow, hregisters, Nat.le_trans hlow le_next_spillBlocks⟩
    sources := by rw [map_source_spillBlocks, h.sources]
    instrs := by
      dsimp only
      rw [Frame.sizeSymbol_allocSlots]
      rfl
    introduced := fun t => by
      rw [mem_freshOf_spillBlocks, SortedSet.mem_union, SortedSet.mem_ofList, h.introduced]
    nodup := hnodup
    spilled := List.forall_mem_append.2 ⟨h.spilled, hts⟩
    moved := fun t ht b' hb' hop => h.moved_spillBlocks hb' ht hop
    frame := by
      dsimp only
      rw [List.length_append, Frame.allocSlots_add, h.frame] }⟩

end Round

/-- Rounds come to an end: each one that spills leaves fewer temps to be spilled. -/
theorem allocateWithin_settles (hlabels : (labelsOf code).Nodup)
    (htargets : ∀ i ∈ code, ∀ l ∈ i.targets, l ∈ labelsOf code)
    (htemps : ∀ t, Mentions code t → t.id < n.nextTemp)
    (hslots : ∀ j : Nat, 1 ≤ j → j ≤ (unallocated m code).size →
      isImm32 (frame.offset - j * frame.wordSize) = true)
    (hfits : Fits m code) {left done : Nat} (h : Round m code frame n p all)
    (hdone : done ≤ p.spilled.length)
    (hleft : (unallocated m code).size + 1 ≤ p.spilled.length + left) :
    ∃ a n', allocateWithin m options done left p = (.ok a, n') ∧
      a.rounds ≤ (unallocated m code).size + 1 ∧ ∀ t ∈ a.spilled, t ∈ unallocated m code := by
  -- what is left of the fuel is more than the temps that may still be spilled
  induction left generalizing done p all with
  | zero =>
      have hle := length_le_unallocated h.nodup h.spilled
      omega
  | succ left ih =>
      have hsources := sourcesOf_of_sources h.sources
      have hbuild : ∃ flow, FlowGraph.build p.instrs = .ok flow := by
        rw [h.instrs]
        exact build_codeOf (hsources.symm ▸ hlabels) (hsources.symm ▸ htargets)
      rcases hbuild with ⟨flow, hbuild⟩
      have hcolors : ∃ g r, colorCode m options p.introduced p.instrs = .ok (g, r) := by
        rcases colorCode_eq hbuild with ⟨g, r, hcolor, _⟩
        exact ⟨g, r, hcolor⟩
      rcases hcolors with ⟨g, r, hcolor⟩
      have hspills := h.spills hfits hcolor
      cases hnone : r.spilled.isEmpty with
      | true =>
          rcases registerNames_colorCode hcolor hnone with ⟨names, hnames⟩
          have hle := length_le_unallocated h.nodup h.spilled
          rw [allocateWithin_of_last hcolor hnone, hnames]
          refine ⟨_, _, rfl, ?_, h.spilled⟩
          dsimp only
          omega
      | false =>
          -- the next round has fewer temps to spill
          rcases h.next hslots htemps hspills.1 hspills.2 with ⟨s, f, n', all', hspill, hnext⟩
          have hpos : 0 < r.spilled.toList.length := by
            refine List.length_pos_iff.2 fun hnil => ?_
            have hempty : r.spilled.isEmpty = true := List.isEmpty_iff.2 hnil
            rw [hnone] at hempty
            cases hempty
          have hlength : (p.spilled ++ r.spilled.toList).length =
              p.spilled.length + r.spilled.toList.length := List.length_append
          rw [allocateWithin_of_next hcolor hnone hspill]
          refine ih hnext ?_ ?_
          · dsimp only
            omega
          · dsimp only
            omega

/-- Allocation settles when each instruction fits on its own and all slots are in reach: it succeeds
within one round more than there are temps, and spills only temps of the program. -/
theorem allocate_settles (options : AllocOptions) (hlabels : (labelsOf code).Nodup)
    (htargets : ∀ i ∈ code, ∀ l ∈ i.targets, l ∈ labelsOf code)
    (hfirst : Temp.firstVirtual ≤ n.nextTemp) (htemps : ∀ t, Mentions code t → t.id < n.nextTemp)
    (hslots : ∀ j : Nat, 1 ≤ j → j ≤ (unallocated m code).size →
      isImm32 (frame.offset - j * frame.wordSize) = true)
    (hfits : Fits m code) :
    ∃ a n', frame.allocate m options code n = (.ok a, n') ∧
      a.rounds ≤ (unallocated m code).size + 1 ∧
      ∀ t ∈ a.spilled, Mentions code t ∧ m.isRegister t = false := by
  have hsp : m.stackPointer.id < n.nextTemp := by
    have hnames := m.names_lt
    unfold Machine.stackPointer Machine.colors
    dsimp only
    omega
  have hoperands : ∀ x ∈ itemsOf code 0, ∀ t ∈ x.instr.defs ++ x.instr.uses, t.id < n.nextTemp := by
    intro x hx t ht
    refine htemps t ⟨x.instr, ?_, ht⟩
    rw [← instrsOf_itemsOf code 0]
    exact List.mem_map_of_mem hx
  have htidy : Tidy ⟨m, frame.sizeSymbol⟩ n.nextTemp n.nextTemp
      ((itemsOf code 0).map fun x => { source := x }) := tidy_map hoperands
  have hstart : Round m code frame n { instrs := code, frame, namer := n }
      ((itemsOf code 0).map fun x => { source := x }) := by
    refine ⟨⟨htidy, hsp, Nat.le_refl _⟩, ?_, ?_, fun t => iff_of_false ?_ ?_, .nil, ?_, ?_, rfl⟩
    · rw [List.map_map]
      exact List.map_id _
    · dsimp only
      rw [codeOf, itemsOfBlocks_map, instrsOf_itemsOf]
    · exact SortedSet.not_mem_empty t
    · intro hmem
      rcases mem_freshOf.1 hmem with ⟨b, hb, ht⟩
      rcases List.mem_map.1 hb with ⟨x, _, rfl⟩
      cases ht
    · exact fun t ht => absurd ht List.not_mem_nil
    · exact fun t ht => absurd ht List.not_mem_nil
  have hsettles : ∃ a n', frame.allocate m options code n = (.ok a, n') ∧
      a.rounds ≤ (unallocated m code).size + 1 ∧ ∀ t ∈ a.spilled, t ∈ unallocated m code :=
    allocateWithin_settles hlabels htargets htemps hslots hfits hstart (Nat.zero_le _)
      (Nat.le_of_eq (Nat.zero_add _).symm)
  rcases hsettles with ⟨a, n', hok, hrounds, hspilled⟩
  exact ⟨a, n', hok, hrounds, fun t ht => mem_unallocated.1 (hspilled t ht)⟩

/-- Three temps are live at once on a machine with two registers, though each instruction fits: all
of them are moved to the frame, one a round, and the limit is reached. -/
theorem allocate_settles_two_registers :
    let code : List Instr := [.plain "movq $1, `d0" [⟨100⟩] [], .plain "movq $2, `d0" [⟨101⟩] [],
      .plain "movq $3, `d0" [⟨102⟩] [], .plain "addq `s0, `d0" [⟨100⟩] [⟨101⟩, ⟨100⟩],
      .plain "addq `s0, `d0" [⟨100⟩] [⟨102⟩, ⟨100⟩], .copy "movq `s0, `d0" ⟨0⟩ ⟨100⟩,
      .plain "" [] [⟨0⟩]]
    let frame := Frame.new "f" 0 .twoRegisters
    Fits .twoRegisters code ∧ (unallocated .twoRegisters code).size = 3 ∧
      ∃ a n', frame.allocate .twoRegisters {} code { nextTemp := 103 } = (.ok a, n') ∧
        a.rounds = 3 + 1 ∧ a.spilled.length = 3 ∧
        ∀ t ∈ a.spilled, Mentions code t ∧ Machine.twoRegisters.isRegister t = false := by
  intro code frame
  have hfits : Fits .twoRegisters code := fits_of_checkFits (by decide +kernel)
  have hsize : (unallocated .twoRegisters code).size = 3 := by decide +kernel
  have hoperands : ∀ i ∈ code, ∀ t ∈ i.defs ++ i.uses, t.id < 103 := by decide
  have htemps : ∀ t, Mentions code t → t.id < 103 := by
    rintro t ⟨i, hi, ht⟩
    exact hoperands i hi t ht
  have hslots : ∀ j : Nat, 1 ≤ j → j ≤ (unallocated .twoRegisters code).size →
      isImm32 (frame.offset - j * frame.wordSize) = true := by
    intro j _ hle
    rw [hsize] at hle
    have hoffset : frame.offset - (j : Int) * frame.wordSize = -(4 * j) := by
      change (-0 : Int) - j * 4 = -(4 * j)
      omega
    rw [hoffset, isImm32, Bool.and_eq_true, decide_eq_true_eq, decide_eq_true_eq]
    omega
  have hcounts : (frame.allocate .twoRegisters {} code { nextTemp := 103 }).1.toOption.map
      (fun a => (a.rounds, a.spilled.length)) = some (3 + 1, 3) := by decide +kernel
  have hsettles : ∃ a n', frame.allocate .twoRegisters {} code { nextTemp := 103 } = (.ok a, n') ∧
      a.rounds ≤ (unallocated .twoRegisters code).size + 1 ∧
      ∀ t ∈ a.spilled, Mentions code t ∧ Machine.twoRegisters.isRegister t = false :=
    allocate_settles {} (by decide) (by decide) (by decide) htemps hslots hfits
  rcases hsettles with ⟨a, n', hok, _, hspilled⟩
  rw [hok] at hcounts
  have hcounts : (a.rounds, a.spilled.length) = (3 + 1, 3) := Option.some.inj hcounts
  exact ⟨hfits, hsize, a, n', hok, congrArg Prod.fst hcounts, congrArg Prod.snd hcounts, hspilled⟩

end Rounds

end TreeCompiler
