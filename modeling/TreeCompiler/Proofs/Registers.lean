import TreeCompiler.Allocation
import TreeCompiler.Proofs.Coloring.Proper
import TreeCompiler.Proofs.Conflicts
import TreeCompiler.Proofs.Places

/-!
# Registers — the names that a coloring gives

A round that succeeds builds the interference graph of its code and colors it properly
(`colorCode_spec`).  If nothing is spilled, every temp of the code is called by the name of one
register, and what must be held apart is in different registers (`separates_lookup`).
-/

namespace TreeCompiler

open FlowGraph Coloring

namespace Allocation

variable {m : Machine} {options : AllocOptions} {avoid : TempSet} {code : List Instr}
  {g : Interference} {r : ColorResult} {names names' : NameMap} {ts : List Temp} {t p : Temp}

/-! ## One round -/

/-- A round colors the graph of its code, if the code has a flow graph. -/
theorem colorCode_eq {flow : FlowGraph} (hbuild : FlowGraph.build code = .ok flow) :
    ∃ g r, colorCode m options avoid code = .ok (g, r) ∧ g.Portrays m code ∧
      (ofGraph g m options avoid).run = .ok r := by
  have hflow := of_build hbuild
  rcases Liveness.analyze_spec hflow with ⟨live, hanalyze, _, hlive⟩
  have hportrays : (Interference.build m flow live).Portrays m code :=
    Interference.portrays_build hflow hlive
  rcases (start_ofGraph hportrays.built.wellFormed m options avoid).run with ⟨c, _, _, hrun⟩
  have hrun : (ofGraph (Interference.build m flow live) m options avoid).run
      = .ok c.assignColors.result := hrun _
  refine ⟨_, _, ?_, hportrays, hrun⟩
  unfold colorCode
  rw [hbuild]
  change (do
    let live ← (Liveness.analyze flow).mapError AllocationError.liveness
    let result ← (ofGraph (Interference.build m flow live) m options avoid).run.mapError
      AllocationError.coloring
    return (Interference.build m flow live, result)) = _
  rw [hanalyze]
  change (do
    let result ← (ofGraph (Interference.build m flow live) m options avoid).run.mapError
      AllocationError.coloring
    return (Interference.build m flow live, result)) = _
  rw [hrun]
  rfl

/-- A round that succeeds has a flow graph, and its result is that of coloring its graph. -/
theorem exists_of_colorCode (h : colorCode m options avoid code = .ok (g, r)) :
    (∃ flow, FlowGraph.build code = .ok flow) ∧ g.Portrays m code ∧
      (ofGraph g m options avoid).run = .ok r := by
  obtain ⟨flow, hflow, _⟩ := bind_eq_ok_iff.1 h
  have hbuild : FlowGraph.build code = .ok flow := mapError_eq_ok_iff.1 hflow
  obtain ⟨g', r', heq, hportrays, hrun⟩ := colorCode_eq hbuild
  cases heq.symm.trans h
  exact ⟨⟨flow, hbuild⟩, hportrays, hrun⟩

theorem colorCode_spec (h : colorCode m options avoid code = .ok (g, r)) :
    g.Portrays m code ∧ Proper m g r := by
  obtain ⟨-, hportrays, hrun⟩ := exists_of_colorCode h
  exact ⟨hportrays, .of_run hportrays.built hrun⟩

/-! ## Names -/

/-- Different registers have different names. -/
theorem asmName?_inj {p q : Temp} {a : String} (hp : m.asmName? p = some a)
    (hq : m.asmName? q = some a) : p = q := by
  unfold Machine.asmName? at hp hq
  rcases Option.map_eq_some_iff.1 hp with ⟨x, hx, hxa⟩
  rcases Option.map_eq_some_iff.1 hq with ⟨y, hy, hya⟩
  have hxy : x = y := (String.append_right_inj "%").1 (hxa.trans hya.symm)
  subst hxy
  have hlt : p.id < m.names.length := (List.getElem?_eq_some_iff.1 hx).1
  have hid := (List.getElem?_inj hlt m.names_nodup).1 (hx.trans hy.symm)
  cases p
  cases q
  exact congrArg Temp.mk hid

theorem mem_registers : t ∈ m.registers ↔ m.isRegister t = true := by
  unfold Machine.registers
  rw [List.mem_map, Machine.isRegister, decide_eq_true_eq]
  constructor
  · rintro ⟨n, hn, rfl⟩
    exact List.mem_range.1 hn
  · exact fun hlt => ⟨t.id, List.mem_range.2 hlt, rfl⟩

/-- What a round spills are temps of its code, and no registers. -/
theorem spilled_colorCode (h : colorCode m options avoid code = .ok (g, r))
    (ht : t ∈ r.spilled.toList) : Mentions code t ∧ m.isRegister t = false := by
  obtain ⟨hportrays, hproper⟩ := colorCode_spec h
  obtain ⟨htemp, hreg⟩ := hproper.spilled ht
  refine ⟨((hportrays.node t).1 htemp).resolve_left fun hmem => ?_, hreg⟩
  rw [mem_registers.1 hmem] at hreg
  cases hreg

theorem exists_asmName? (hp : m.isRegister p = true) : ∃ a, m.asmName? p = some a := by
  have hlt : p.id < m.names.length := of_decide_eq_true hp
  exact ⟨_, Option.map_eq_some_iff.2 ⟨_, List.getElem?_eq_getElem hlt, rfl⟩⟩

/-- The register of a temp in a proper coloring: that of its color, unless it is reserved. -/
theorem registerOf_spec (hproper : Proper m g r) (h : registerOf m r t = .ok p) :
    (m.isReserved t = true ∧ p = t) ∨
      (m.isReserved t = false ∧ r.colors.get? t = some p.id ∧ p.id < m.colors) := by
  unfold registerOf at h
  cases hcolor : r.colors.get? t with
  | some x =>
      rw [hcolor] at h
      cases h
      refine .inr ⟨?_, rfl, hproper.lt hcolor⟩
      refine Bool.eq_false_iff.2 fun hreserved => ?_
      exact absurd (hcolor.symm.trans (hproper.reserved hreserved)) nofun
  | none =>
      rw [hcolor] at h
      dsimp only at h
      split at h
      · rename_i hreg
        cases h
        refine .inl ⟨?_, rfl⟩
        -- an allocatable register would have its color
        refine (Machine.isReserved_iff_colors_le hreg).2 (Nat.le_of_not_lt fun hlow => ?_)
        exact absurd (hcolor.symm.trans (hproper.fixed hlow)) nofun
      · cases h

theorem isRegister_registerOf (hproper : Proper m g r) (h : registerOf m r t = .ok p) :
    m.isRegister p = true := by
  rcases registerOf_spec hproper h with ⟨hreserved, rfl⟩ | ⟨_, _, hlt⟩
  · exact Machine.isRegister_of_isReserved hreserved
  · exact Machine.isRegister_iff.2 (Nat.lt_add_right 2 hlt)

/-- Registers are their own registers. -/
theorem registerOf_of_isRegister (hproper : Proper m g r) (ht : m.isRegister t = true) :
    registerOf m r t = .ok t := by
  unfold registerOf
  by_cases hlow : t.id < m.colors
  · rw [show r.colors.get? t = some t.id from hproper.fixed hlow]
    rfl
  · have hreserved := (Machine.isReserved_iff_colors_le ht).2 (Nat.le_of_not_lt hlow)
    rw [hproper.reserved hreserved]
    exact if_pos ht

/-- A register that is called something gives its name to the temp. -/
theorem registerNames_of_some {u q : Temp} {a : String} (hu : registerOf m r u = .ok q)
    (ha : m.asmName? q = some a) :
    registerNames m r (u :: ts) names = registerNames m r ts (names.insert u a) := by
  conv_lhs => unfold registerNames
  rw [hu]
  simp only [bind, Except.bind, ha]

theorem registerNames_of_none {u q : Temp} (hu : registerOf m r u = .ok q)
    (ha : m.asmName? q = none) :
    registerNames m r (u :: ts) names = registerNames m r ts names := by
  conv_lhs => unfold registerNames
  rw [hu]
  simp only [bind, Except.bind, ha]

/-- Names of a list of temps, by the first one: it has a register, and is called by its name if the
register has one. -/
theorem exists_of_registerNames_cons {u : Temp}
    (h : registerNames m r (u :: ts) names = .ok names') : ∃ q, registerOf m r u = .ok q ∧
      ((∃ a, m.asmName? q = some a ∧ registerNames m r ts (names.insert u a) = .ok names') ∨
        m.asmName? q = none ∧ registerNames m r ts names = .ok names') := by
  obtain ⟨q, hu, _⟩ := bind_eq_ok_iff.1 h
  refine ⟨q, hu, ?_⟩
  cases hq : m.asmName? q with
  | some a => exact .inl ⟨a, rfl, registerNames_of_some hu hq ▸ h⟩
  | none => exact .inr ⟨rfl, registerNames_of_none hu hq ▸ h⟩

/-- Every temp of a list that has names has a register. -/
theorem exists_registerOf (h : registerNames m r ts names = .ok names') (ht : t ∈ ts) :
    ∃ p, registerOf m r t = .ok p := by
  induction ts generalizing names with
  | nil => cases ht
  | cons u ts ih =>
      rcases exists_of_registerNames_cons h with ⟨q, hu, hrest⟩
      rcases List.mem_cons.1 ht with rfl | ht
      · exact ⟨q, hu⟩
      · rcases hrest with ⟨_, _, hrest⟩ | ⟨_, hrest⟩
        · exact ih hrest ht
        · exact ih hrest ht

/-- A temp is called by the name of its register. -/
theorem get?_registerNames {a : String} (h : registerNames m r ts names = .ok names')
    (hp : registerOf m r t = .ok p) (ha : m.asmName? p = some a)
    (ht : t ∈ ts ∨ names.get? t = some a) : names'.get? t = some a := by
  induction ts generalizing names with
  | nil =>
      cases h
      exact ht.resolve_left List.not_mem_nil
  | cons u ts ih =>
      rcases exists_of_registerNames_cons h with ⟨q, hu, hrest⟩
      by_cases hut : u = t
      · subst hut
        cases hu.symm.trans hp
        rcases hrest with ⟨b, hb, hrest⟩ | ⟨hnone, _⟩
        · cases hb.symm.trans ha
          refine ih hrest (.inr ?_)
          rw [TempMap.get?_insert, if_pos rfl]
        · exact absurd (hnone.symm.trans ha) nofun
      · -- the name of another temp does not matter
        have ht' : t ∈ ts ∨ names.get? t = some a :=
          ht.imp_left fun hmem => (List.mem_cons.1 hmem).resolve_left (Ne.symm hut)
        rcases hrest with ⟨b, _, hrest⟩ | ⟨_, hrest⟩
        · refine ih hrest (ht'.imp_right fun hname => ?_)
          rw [TempMap.get?_insert, if_neg hut, hname]
        · exact ih hrest ht'

/-! ## The places of temps -/

section Places

variable (hportrays : g.Portrays m code) (hproper : Proper m g r)
  (hnames : registerNames m r g.temps .empty = .ok names)

include hproper hnames in
/-- Each temp of the graph is called by the name of its register. -/
theorem exists_lookup (ht : t ∈ g.temps) : ∃ p a, registerOf m r t = .ok p ∧
    m.asmName? p = some a ∧ names.get? t = some a ∧ names.lookup t = a := by
  rcases exists_registerOf hnames ht with ⟨p, hp⟩
  rcases exists_asmName? (isRegister_registerOf hproper hp) with ⟨a, ha⟩
  have hget := get?_registerNames hnames hp ha (.inl ht)
  refine ⟨p, a, hp, ha, hget, ?_⟩
  unfold TempMap.lookup
  rw [hget]
  rfl

include hproper hnames in
/-- Temps with one name have one register. -/
theorem registerOf_eq {d o : Temp} (hd : d ∈ g.temps) (ho : o ∈ g.temps)
    (heq : names.lookup d = names.lookup o) : registerOf m r d = registerOf m r o := by
  rcases exists_lookup hproper hnames hd with ⟨p, a, hp, ha, _, hpa⟩
  rcases exists_lookup hproper hnames ho with ⟨q, b, hq, hb, _, hqb⟩
  have hab : a = b := hpa.symm.trans (heq.trans hqb)
  rw [hp, hq, asmName?_inj ha (hab ▸ hb)]

include hproper in
/-- A temp that can have a color is not in a reserved register, nor in that of a neighbor. -/
theorem registerOf_ne {d o : Temp} (hd : m.isReserved d = false)
    (ho : m.isReserved o = true ∨ g.interferes d o = true) {p q : Temp}
    (hp : registerOf m r d = .ok p) (hq : registerOf m r o = .ok q) : p ≠ q := by
  rcases registerOf_spec hproper hp with ⟨hreserved, _⟩ | ⟨_, hcolor, hlt⟩
  · exact absurd (hd.symm.trans hreserved) nofun
  · rintro rfl
    rcases registerOf_spec hproper hq with ⟨hreserved, rfl⟩ | ⟨hfree, hcolor', _⟩
    · exact Nat.not_lt_of_le (Machine.colors_le_of_isReserved hreserved) hlt
    · rcases ho with ho | ho
      · exact absurd (hfree.symm.trans ho) nofun
      · exact hproper.apart ho hcolor hcolor' rfl

end Places

/-- The names of registers hold apart what must be held apart. -/
theorem separates_lookup {target : Target} {code : List Item} {k : Nat} {used : List Int}
    (ho : Orderly target k used code) (hportrays : g.Portrays target.machine (instrsOf code))
    (hproper : Proper target.machine g r)
    (hnames : registerNames target.machine r g.temps .empty = .ok names) :
    Separates target code names.lookup := by
  have hdefined : ∀ {x : Item} {d : Temp}, x ∈ code → d ∈ x.instr.defs → d ∈ g.temps := by
    intro x d hx hd
    exact (hportrays.node d).2 (.inr ⟨x.instr, List.mem_map_of_mem hx, List.mem_append_left _ hd⟩)
  have hdiffer : ∀ {x : Item} {d t : Temp}, x ∈ code → d ∈ x.instr.defs → t ∈ g.temps →
      target.machine.isReserved t = true ∨ g.interferes d t = true →
      names.lookup d ≠ names.lookup t := by
    intro x d t hx hd ht hclash heq
    rcases exists_lookup hproper hnames (hdefined hx hd) with ⟨p, _, hp, _⟩
    have hq := (registerOf_eq hproper hnames (hdefined hx hd) ht heq).symm.trans hp
    exact registerOf_ne hproper (ho.reserved x hx d hd) hclash hp hq rfl
  refine { apart := ?apart, stackPointer := ?stackPointer }
  case apart =>
    -- with names alike they would have an edge, unless one is a copy of the other
    intro x rest d t hsuffix hd hlive hne heq
    refine Classical.byContradiction fun hsource => ?_
    have hx : x ∈ code := hsuffix.mem List.mem_cons_self
    have hmap : instrsOf (x :: rest) <:+ instrsOf code := hsuffix.map Item.instr
    rcases hlive.exists_use hmap with ⟨i, hi, huse⟩
    have ht : t ∈ g.temps := (hportrays.node t).2 (.inr ⟨i, hi, List.mem_append_right _ huse⟩)
    refine hdiffer hx hd ht ?_ heq
    cases hreserved : target.machine.isReserved t with
    | true => exact .inl rfl
    | false =>
        refine .inr ((hportrays.edge d t).2 (.inr (.inl ⟨x.instr, instrsOf rest, hmap, ?_⟩)))
        exact ⟨hd, hlive, Ne.symm hne, ⟨ho.reserved x hx d hd, hreserved⟩, hsource⟩
  case stackPointer =>
    intro x hx d hd
    have hreserved : target.machine.isReserved target.machine.stackPointer = true := by
      simp [Machine.isReserved]
    refine hdiffer hx hd ((hportrays.node _).2 (.inl (mem_registers.2 ?_))) (.inl hreserved)
    exact Machine.isRegister_iff.2 (Nat.lt_succ_self _)

/-- What is dropped as redundant copies within one register. -/
theorem drops_isRedundant (code : List Item) (names : NameMap) :
    Drops code names.lookup fun x => !x.instr.isRedundant names := by
  refine ⟨fun x _ hkeep => ?_⟩
  have hredundant : x.instr.isRedundant names = true := by
    simpa using hkeep
  unfold Instr.isRedundant at hredundant
  cases hpair : x.instr.movePair? with
  | none =>
      rw [hpair] at hredundant
      cases hredundant
  | some e =>
      rcases e with ⟨s, d⟩
      rw [hpair] at hredundant
      dsimp only at hredundant
      split at hredundant
      · rename_i a b ha hb
        refine ⟨s, d, rfl, ?_⟩
        unfold TempMap.lookup
        rw [ha, hb, of_decide_eq_true hredundant]
        rfl
      · cases hredundant

end Allocation

end TreeCompiler
