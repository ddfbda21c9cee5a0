import TreeCompiler.Proofs.Interference
import TreeCompiler.Proofs.Liveness

/-!
# Conflicts — the interference graph of some code

A function that draws on a graph adds nodes, edges and copies, whatever is there already (`Draws`).
What the graph of some code consists of is put together from what each part draws
(`Interference.portrays_build`): the registers and the temps of the code, a clique of the
allocatable registers, and an edge for each definition of one temp while another one is live
(`Clash`). -/

namespace TreeCompiler

open FlowGraph

variable {m : Machine} {code : List Instr} {flow : FlowGraph} {live : Liveness} {t : Temp}

/-! ## What the graph should have -/

/-- A temp that some instruction defines or uses. -/
def Mentions (code : List Instr) (t : Temp) : Prop := ∃ i ∈ code, t ∈ i.defs ++ i.uses

/-- The first instruction of a rest defines `d` while `o`, which is not its copied source, is
live. -/
structure ClashAt (m : Machine) (code : List Instr) (i : Instr) (rest : List Instr) (d o : Temp) :
    Prop where
  defined : d ∈ i.defs
  live : LiveOut code o (i :: rest)
  ne : o ≠ d
  notReserved : m.isReserved d = false ∧ m.isReserved o = false
  notSource : i.movePair?.map (·.1) ≠ some o

def Clash (m : Machine) (code : List Instr) (d o : Temp) : Prop :=
  ∃ i rest, (i :: rest) <:+ code ∧ ClashAt m code i rest d o

/-- A copy between temps that can have a color. -/
def Copies (m : Machine) (code : List Instr) (s d : Temp) : Prop :=
  ∃ i ∈ code, i.movePair? = some (s, d) ∧ m.isReserved s = false ∧ m.isReserved d = false

theorem Clash.mentions {d o : Temp} (h : Clash m code d o) : Mentions code d ∧ Mentions code o := by
  rcases h with ⟨i, rest, hsuffix, hat⟩
  rcases hat.live.exists_use hsuffix with ⟨j, hj, huse⟩
  exact ⟨⟨i, hsuffix.mem List.mem_cons_self, List.mem_append_left _ hat.defined⟩,
    ⟨j, hj, List.mem_append_right _ huse⟩⟩

theorem mentions_of_movePair? {i : Instr} {s d : Temp} (h : i.movePair? = some (s, d)) :
    s ∈ i.uses ∧ d ∈ i.defs := by
  rcases Instr.eq_copy_of_movePair? h with ⟨text, rfl⟩
  exact ⟨List.mem_singleton_self s, List.mem_singleton_self d⟩

theorem Copies.mentions {s d : Temp} (h : Copies m code s d) :
    Mentions code s ∧ Mentions code d := by
  rcases h with ⟨i, hi, hpair, _⟩
  have hends := mentions_of_movePair? hpair
  exact ⟨⟨i, hi, List.mem_append_right _ hends.1⟩, ⟨i, hi, List.mem_append_left _ hends.2⟩⟩

namespace Interference

variable {g : Interference}

/-- A copy is noted between the nodes of two temps. -/
def HasMove (g : Interference) (s d : Temp) : Prop :=
  ∃ e ∈ g.moves, g.graph.nodes[e.1]? = some s ∧ g.graph.nodes[e.2]? = some d

/-- What the graph of some code consists of. -/
structure Portrays (m : Machine) (code : List Instr) (g : Interference) : Prop where
  built : Built m g
  node : ∀ t, t ∈ g.temps ↔ t ∈ m.registers ∨ Mentions code t
  edge : ∀ x y, g.interferes x y = true ↔
    (x ≠ y ∧ x ∈ m.allocatable ∧ y ∈ m.allocatable) ∨ Clash m code x y ∨ Clash m code y x
  move : ∀ s d, g.HasMove s d ↔ Copies m code s d

/-! ## Drawing on a graph -/

/-- What a function adds to every graph: nodes, edges and copies. -/
structure Draws (m : Machine) (f : Interference → Interference) (N : Temp → Prop)
    (E M : Temp → Temp → Prop) : Prop where
  built : ∀ {g}, Built m g → Built m (f g)
  grown : ∀ {g}, WellFormed g → Grown g (f g)
  node : ∀ {g}, WellFormed g → ∀ t, t ∈ (f g).temps ↔ N t ∨ t ∈ g.temps
  edge : ∀ {g}, WellFormed g → ∀ x y, (f g).interferes x y = true ↔ E x y ∨ g.interferes x y = true
  move : ∀ {g}, WellFormed g → ∀ s d, (f g).HasMove s d ↔ M s d ∨ g.HasMove s d

namespace Draws

variable {f f' : Interference → Interference} {N N' : Temp → Prop} {E E' M M' : Temp → Temp → Prop}

theorem congr (h : Draws m f N E M) (hN : ∀ t, N t ↔ N' t) (hE : ∀ x y, E x y ↔ E' x y)
    (hM : ∀ s d, M s d ↔ M' s d) : Draws m f N' E' M' where
  built := h.built
  grown := h.grown
  node := fun hg t => (h.node hg t).trans (or_congr_left (hN t))
  edge := fun hg x y => (h.edge hg x y).trans (or_congr_left (hE x y))
  move := fun hg s d => (h.move hg s d).trans (or_congr_left (hM s d))

theorem nothing (m : Machine) :
    Draws m (fun g => g) (fun _ => False) (fun _ _ => False) fun _ _ => False where
  built := id
  grown := fun hg => ⟨hg, fun _ _ => id⟩
  node := fun _ _ => (or_iff_right not_false).symm
  edge := fun _ _ _ => (or_iff_right not_false).symm
  move := fun _ _ _ => (or_iff_right not_false).symm

/-- First one drawing, then another one. -/
theorem comp (h : Draws m f N E M) (h' : Draws m f' N' E' M') :
    Draws m (fun g => f' (f g)) (fun t => N t ∨ N' t) (fun x y => E x y ∨ E' x y)
      fun s d => M s d ∨ M' s d where
  built := fun hg => h'.built (h.built hg)
  grown := fun hg => (h.grown hg).trans (h'.grown (h.grown hg).wellFormed)
  node := by
    intro g hg t
    rw [h'.node (h.grown hg).wellFormed, h.node hg, ← or_assoc, or_comm (a := N' t)]
  edge := by
    intro g hg x y
    rw [h'.edge (h.grown hg).wellFormed, h.edge hg, ← or_assoc, or_comm (a := E' x y)]
  move := by
    intro g hg s d
    rw [h'.move (h.grown hg).wellFormed, h.move hg, ← or_assoc, or_comm (a := M' s d)]

/-- A drawing for each entry of a list. -/
theorem foldl {α : Type} {f : Interference → α → Interference} {N : α → Temp → Prop}
    {E M : α → Temp → Temp → Prop} (l : List α)
    (h : ∀ a ∈ l, Draws m (fun g => f g a) (N a) (E a) (M a)) :
    Draws m (fun g => l.foldl f g) (fun t => ∃ a ∈ l, N a t) (fun x y => ∃ a ∈ l, E a x y)
      fun s d => ∃ a ∈ l, M a s d := by
  induction l with
  | nil =>
      refine (nothing m).congr ?_ ?_ ?_
      · simp
      · simp
      · simp
  | cons a l ih =>
      have hrest := ih fun b hb => h b (List.mem_cons_of_mem _ hb)
      refine ((h a List.mem_cons_self).comp hrest).congr ?_ ?_ ?_
      · simp
      · simp
      · simp

end Draws

/-! ## Single drawings -/

theorem mem_temps_iff {g : Interference} : t ∈ g.temps ↔ ∃ n : Nat, g.graph.nodes[n]? = some t := by
  unfold temps
  rw [List.mem_iff_getElem?]
  simp

/-- Copies between old nodes stay as they are. -/
theorem Grown.hasMove_iff {h : Interference} (hgrown : Grown g h) (hg : WellFormed g)
    (hmoves : h.moves = g.moves) (s d : Temp) : h.HasMove s d ↔ g.HasMove s d := by
  unfold HasMove
  rw [hmoves]
  refine exists_congr fun e => and_congr_right fun he => ?_
  have hlt := hg.moves e he
  rcases WellFormed.exists_node hlt.1 with ⟨s', hs⟩
  rcases WellFormed.exists_node hlt.2 with ⟨d', hd⟩
  rw [hs, hd, hgrown.grows _ _ hs, hgrown.grows _ _ hd]

theorem draws_addTemp (m : Machine) (t : Temp) :
    Draws m (fun g => (g.addTemp t).2) (· = t) (fun _ _ => False) fun _ _ => False where
  built := fun hg => hg.addTemp t
  grown := fun hg => (tempAdded hg t).grown
  node := by
    intro g hg u
    have hr := tempAdded hg t
    rw [mem_temps_iff, mem_temps_iff]
    constructor
    · rintro ⟨n, hn⟩
      rcases hr.old hn with rfl | hold
      · exact .inl rfl
      · exact .inr ⟨n, hold⟩
    · rintro (rfl | ⟨n, hn⟩)
      · exact ⟨_, hr.node⟩
      · exact ⟨n, hr.grows n u hn⟩
  edge := fun hg x y => ((tempAdded hg t).interferes hg).trans (or_iff_right not_false).symm
  move := by
    intro g hg s d
    have hr := tempAdded hg t
    exact (hr.grown.hasMove_iff hg hr.moves s d).trans (or_iff_right not_false).symm

theorem moves_addEdge (hg : WellFormed g) (a b : Temp) : (g.addEdge a b).moves = g.moves := by
  unfold addEdge
  split
  · rfl
  · have h₁ := tempAdded hg a
    exact (tempAdded h₁.wellFormed b).moves.trans h₁.moves

theorem draws_addEdge (m : Machine) (a b : Temp) :
    Draws m (fun g => g.addEdge a b) (fun t => a ≠ b ∧ (t = a ∨ t = b))
      (fun x y => a ≠ b ∧ (x = a ∧ y = b ∨ x = b ∧ y = a)) fun _ _ => False where
  built := fun hg => hg.addEdge a b
  grown := fun hg => grown_addEdge hg a b
  node := by
    intro g hg t
    by_cases hab : a = b
    · simp [addEdge, hab]
    · -- the nodes are those of the graph to which both temps were added
      have hnodes : (g.addEdge a b).temps = ((g.addTemp a).2.addTemp b).2.temps := by
        rw [addEdge, if_neg hab]
        rfl
      have hboth := (draws_addTemp m a).comp (draws_addTemp m b)
      rw [hnodes, hboth.node hg]
      simp [hab]
  edge := fun hg x y => interferes_addEdge hg a b x y
  move := fun hg s d => ((grown_addEdge hg a b).hasMove_iff hg (moves_addEdge hg a b) s d).trans
    (or_iff_right not_false).symm

theorem draws_addMove (m : Machine) (a b : Temp) :
    Draws m (fun g => g.addMove a b) (fun t => t = a ∨ t = b) (fun _ _ => False)
      fun s d => s = a ∧ d = b where
  built := fun hg => hg.addMove a b
  grown := fun hg => grown_addMove hg a b
  node := by
    intro g hg t
    have hnodes : (g.addMove a b).temps = ((g.addTemp a).2.addTemp b).2.temps := by
      unfold addMove
      dsimp only
      split
      · rfl
      · rfl
    have hboth := (draws_addTemp m a).comp (draws_addTemp m b)
    rw [hnodes, hboth.node hg]
  edge := fun hg x y => (interferes_addMove hg a b x y).trans (or_iff_right not_false).symm
  move := by
    intro g hg s d
    have h₁ := tempAdded hg a
    have h₂ := tempAdded h₁.wellFormed b
    have hx := h₂.grows _ _ h₁.node
    have hold := (h₁.grown.trans h₂.grown).hasMove_iff hg (h₂.moves.trans h₁.moves) s d
    rw [← hold]
    unfold addMove
    dsimp only
    split
    · -- the move is there already
      rename_i hcontains
      refine (or_iff_right_of_imp ?_).symm
      rintro ⟨rfl, rfl⟩
      exact ⟨_, Array.contains_iff_mem.1 hcontains, hx, h₂.node⟩
    · unfold HasMove
      dsimp only
      constructor
      · rintro ⟨e, he, hs, hd⟩
        rcases Array.mem_push.1 he with he | rfl
        · exact .inr ⟨e, he, hs, hd⟩
        · exact .inl ⟨Option.some.inj (hs.symm.trans hx), Option.some.inj (hd.symm.trans h₂.node)⟩
      · rintro (⟨rfl, rfl⟩ | ⟨e, he, hs, hd⟩)
        · exact ⟨_, Array.mem_push_self, hx, h₂.node⟩
        · exact ⟨e, Array.mem_push_of_mem _ he, hs, hd⟩

theorem draws_addTemps (m : Machine) (ts : List Temp) :
    Draws m (fun g => g.addTemps ts) (· ∈ ts) (fun _ _ => False) fun _ _ => False := by
  refine (Draws.foldl ts fun t _ => draws_addTemp m t).congr ?_ ?_ ?_
  · simp
  · simp
  · simp

theorem draws_addClique (m : Machine) (ts : List Temp) :
    Draws m (fun g => g.addClique ts) (fun t => t ∈ ts ∧ ∃ u ∈ ts, t ≠ u)
      (fun x y => x ≠ y ∧ x ∈ ts ∧ y ∈ ts) fun _ _ => False := by
  induction ts with
  | nil =>
      refine (Draws.nothing m).congr ?_ ?_ ?_
      · simp
      · simp
      · simp
  | cons t ts ih =>
      -- the first temp gets an edge to each of the others, and these are a clique on their own
      have hrow := Draws.foldl ts fun u _ => draws_addEdge m t u
      refine (hrow.comp ih).congr ?_ ?_ ?_
      · intro x
        simp only [List.mem_cons]
        constructor
        · rintro (⟨a, ha, hne, rfl | rfl⟩ | ⟨hx, v, hv, hne⟩)
          · exact ⟨.inl rfl, a, .inr ha, hne⟩
          · exact ⟨.inr ha, t, .inl rfl, Ne.symm hne⟩
          · exact ⟨.inr hx, v, .inr hv, hne⟩
        · rintro ⟨rfl | hx, v, rfl | hv, hne⟩
          · exact absurd rfl hne
          · exact .inl ⟨v, hv, hne, .inl rfl⟩
          · exact .inl ⟨x, hx, Ne.symm hne, .inr rfl⟩
          · exact .inr ⟨hx, v, hv, hne⟩
      · intro x y
        simp only [List.mem_cons]
        constructor
        · rintro (⟨a, ha, hne, ⟨rfl, rfl⟩ | ⟨rfl, rfl⟩⟩ | ⟨hne, hx, hy⟩)
          · exact ⟨hne, .inl rfl, .inr ha⟩
          · exact ⟨Ne.symm hne, .inr ha, .inl rfl⟩
          · exact ⟨hne, .inr hx, .inr hy⟩
        · rintro ⟨hne, rfl | hx, rfl | hy⟩
          · exact absurd rfl hne
          · exact .inl ⟨y, hy, hne, .inl ⟨rfl, rfl⟩⟩
          · exact .inl ⟨x, hx, Ne.symm hne, .inr ⟨rfl, rfl⟩⟩
          · exact .inr ⟨hne, hx, hy⟩
      · simp

/-! ## The nodes of a flow graph -/

theorem mem_conflicts {node : FlowNode} {out : TempSet} {d o : Temp} :
    o ∈ conflicts m node out d ↔ o ∈ out ∧ o ≠ d ∧ m.isReserved o = false ∧
      node.movePair?.map (·.1) ≠ some o := by
  unfold conflicts
  rw [List.mem_filter, SortedSet.mem_toList]
  simp [and_assoc]

/-- A definition of `d` at a node conflicts with `o`. -/
def NodeClash (m : Machine) (node : FlowNode) (out : TempSet) (d o : Temp) : Prop :=
  d ∈ node.defs ∧ m.isReserved d = false ∧ o ∈ conflicts m node out d

/-- The node is a copy that is noted. -/
def NodeMove (m : Machine) (node : FlowNode) (s d : Temp) : Prop :=
  node.movePair? = some (s, d) ∧ m.isReserved s = false ∧ m.isReserved d = false

theorem draws_clashes (m : Machine) (node : FlowNode) (out : TempSet) :
    Draws m (fun g => (node.defs.filter fun d => !m.isReserved d).foldl
        (fun g d => (conflicts m node out d).foldl (·.addEdge d) g) g)
      (fun t => ∃ u, NodeClash m node out t u ∨ NodeClash m node out u t)
      (fun x y => NodeClash m node out x y ∨ NodeClash m node out y x) fun _ _ => False := by
  have hall := Draws.foldl (node.defs.filter fun d => !m.isReserved d) fun d _ =>
    Draws.foldl (conflicts m node out d) fun o _ => draws_addEdge m d o
  have hdef : ∀ d, d ∈ node.defs.filter (fun d => !m.isReserved d) ↔
      d ∈ node.defs ∧ m.isReserved d = false := by
    intro d
    rw [List.mem_filter]
    simp
  have hne : ∀ d, ∀ o ∈ conflicts m node out d, d ≠ o := fun d o ho =>
    Ne.symm (mem_conflicts.1 ho).2.1
  refine hall.congr ?_ ?_ ?_
  · intro t
    constructor
    · rintro ⟨d, hd, o, ho, _, rfl | rfl⟩
      · exact ⟨o, .inl ⟨((hdef _).1 hd).1, ((hdef _).1 hd).2, ho⟩⟩
      · exact ⟨d, .inr ⟨((hdef _).1 hd).1, ((hdef _).1 hd).2, ho⟩⟩
    · rintro ⟨u, ⟨hd, hr, ho⟩ | ⟨hd, hr, ho⟩⟩
      · exact ⟨t, (hdef t).2 ⟨hd, hr⟩, u, ho, hne t u ho, .inl rfl⟩
      · exact ⟨u, (hdef u).2 ⟨hd, hr⟩, t, ho, hne u t ho, .inr rfl⟩
  · intro x y
    constructor
    · rintro ⟨d, hd, o, ho, _, ⟨rfl, rfl⟩ | ⟨rfl, rfl⟩⟩
      · exact .inl ⟨((hdef _).1 hd).1, ((hdef _).1 hd).2, ho⟩
      · exact .inr ⟨((hdef _).1 hd).1, ((hdef _).1 hd).2, ho⟩
    · rintro (⟨hd, hr, ho⟩ | ⟨hd, hr, ho⟩)
      · exact ⟨x, (hdef x).2 ⟨hd, hr⟩, y, ho, hne x y ho, .inl ⟨rfl, rfl⟩⟩
      · exact ⟨y, (hdef y).2 ⟨hd, hr⟩, x, ho, hne y x ho, .inr ⟨rfl, rfl⟩⟩
  · simp

/-- A copy between temps that are not reserved is noted; all other nodes leave the graph as it
is. -/
theorem draws_nodeMove (m : Machine) (node : FlowNode) :
    Draws m (fun g => match node.movePair? with
        | some (src, dst) => if m.isReserved src || m.isReserved dst then g else g.addMove src dst
        | none => g)
      (fun t => ∃ u, NodeMove m node t u ∨ NodeMove m node u t) (fun _ _ => False)
      (NodeMove m node) := by
  by_cases hmove : ∃ s d, NodeMove m node s d
  · obtain ⟨s, d, hpair, hs, hd⟩ := hmove
    have hiff : ∀ a b, NodeMove m node a b ↔ a = s ∧ b = d := by
      intro a b
      constructor
      · rintro ⟨heq, _, _⟩
        cases heq.symm.trans hpair
        exact ⟨rfl, rfl⟩
      · rintro ⟨rfl, rfl⟩
        exact ⟨hpair, hs, hd⟩
    simp only [hpair, hs, hd]
    refine (draws_addMove m s d).congr (fun t => ?_) (fun _ _ => Iff.rfl) fun a b => (hiff a b).symm
    simp only [hiff, exists_or]
    simp
  · have hnot : ∀ a b, ¬ NodeMove m node a b := fun a b h => hmove ⟨a, b, h⟩
    have hsame : (fun g : Interference => match node.movePair? with
        | some (src, dst) => if m.isReserved src || m.isReserved dst then g else g.addMove src dst
        | none => g) = fun g => g := by
      funext g
      split
      · rename_i s d hpair
        refine if_pos (Bool.not_eq_false _ ▸ fun hres => hnot s d ⟨hpair, ?_⟩)
        exact Bool.or_eq_false_iff.1 hres
      · rfl
    rw [hsame]
    refine (Draws.nothing m).congr (fun t => ?_) (fun _ _ => Iff.rfl) fun a b => ?_
    · simp [hnot]
    · simp [hnot]

theorem draws_addNode (m : Machine) (node : FlowNode) (out : TempSet) :
    Draws m (fun g => g.addNode m node out)
      (fun t => (∃ u, NodeClash m node out t u ∨ NodeClash m node out u t) ∨
        ∃ u, NodeMove m node t u ∨ NodeMove m node u t)
      (fun x y => NodeClash m node out x y ∨ NodeClash m node out y x) (NodeMove m node) := by
  refine ((draws_clashes m node out).comp (draws_nodeMove m node)).congr (fun _ => Iff.rfl) ?_ ?_
  · simp
  · simp

/-! ## The graph -/

theorem mem_temps_registers : t ∈ (registers m).temps ↔ t ∈ m.registers := by
  have hg := (grown_addTemps wellFormed_empty m.registers).wellFormed
  have hnodes : (empty.addTemps m.registers).temps = m.registers := by
    unfold Machine.registers temps
    rw [nodes_addTemps_range]
  -- the clique among the registers brings no node of its own
  have hclique := (draws_addClique m m.allocatable).node hg t
  rw [hnodes] at hclique
  refine hclique.trans (or_iff_right_of_imp ?_)
  rintro ⟨ht, _⟩
  rcases List.mem_map.1 ht with ⟨i, hi, rfl⟩
  refine List.mem_map.2 ⟨i, List.mem_range.2 ?_, rfl⟩
  rw [m.length_names]
  exact Nat.lt_add_right 2 (List.mem_range.1 hi)

theorem interferes_registers {x y : Temp} : (registers m).interferes x y = true ↔
    x ≠ y ∧ x ∈ m.allocatable ∧ y ∈ m.allocatable := by
  have hg := (grown_addTemps wellFormed_empty m.registers).wellFormed
  have hclique := (draws_addClique m m.allocatable).edge hg x y
  have hnone : (empty.addTemps m.registers).interferes x y = false := by
    rw [Bool.eq_false_iff]
    intro h
    have hold := ((draws_addTemps m m.registers).edge wellFormed_empty x y).1 h
    simp only [false_or] at hold
    rcases wellFormed_empty.interferes_iff.1 hold with ⟨i, _, hi, _⟩
    simp [empty, Digraph.empty] at hi
  rw [hnone] at hclique
  exact hclique.trans (or_iff_left Bool.false_ne_true)

theorem not_hasMove_registers (s d : Temp) : ¬ (registers m).HasMove s d := by
  have hg := (grown_addTemps wellFormed_empty m.registers).wellFormed
  intro h
  have hclique := ((draws_addClique m m.allocatable).move hg s d).1 h
  have hold := ((draws_addTemps m m.registers).move wellFormed_empty s d).1
    ((or_iff_right not_false).1 hclique)
  rcases (or_iff_right not_false).1 hold with ⟨e, he, _⟩
  simp [empty] at he

end Interference

theorem drop_of_getElem? {i : Instr} {p : Nat} (h : code[p]? = some i) :
    code.drop p = i :: code.drop (p + 1) := by
  rw [List.drop_eq_getElem?_toList_append, h]
  rfl

theorem suffix_cons_iff {i : Instr} {rest : List Instr} : (i :: rest) <:+ code ↔
    ∃ p, code[p]? = some i ∧ rest = code.drop (p + 1) := by
  constructor
  · rintro ⟨before, rfl⟩
    refine ⟨before.length, ?_, ?_⟩
    · simp
    · simp
  · rintro ⟨p, hp, rfl⟩
    exact drop_of_getElem? hp ▸ List.drop_suffix p code

namespace Interference

/-! ## Nodes of the flow graph -/

section Nodes

variable (hflow : Of code flow)

include hflow

theorem mem_nodes {node : FlowNode} : node ∈ flow.nodes.toList ↔
    ∃ p i, code[p]? = some i ∧ node = describe i p := by
  rw [hflow.nodes, List.mem_map]
  constructor
  · rintro ⟨⟨i, p⟩, he, rfl⟩
    exact ⟨p, i, List.mem_zipIdx_iff_getElem?.1 he, rfl⟩
  · rintro ⟨p, i, hi, rfl⟩
    exact ⟨(i, p), List.mem_zipIdx_iff_getElem?.2 hi, rfl⟩

/-- What holds of a node wherever it stands is a matter of its instruction. -/
theorem exists_node_iff {P : FlowNode → Prop} {Q : Instr → Prop}
    (h : ∀ i p, P (describe i p) ↔ Q i) :
    (∃ node ∈ flow.nodes.toList, P node) ↔ ∃ i ∈ code, Q i := by
  constructor
  · rintro ⟨node, hnode, hP⟩
    rcases (mem_nodes hflow).1 hnode with ⟨p, i, hi, rfl⟩
    exact ⟨i, List.mem_of_getElem? hi, (h i p).1 hP⟩
  · rintro ⟨i, hi, hQ⟩
    rcases List.mem_iff_getElem?.1 hi with ⟨p, hp⟩
    exact ⟨describe i p, (mem_nodes hflow).2 ⟨p, i, hp, rfl⟩, (h i p).2 hQ⟩

theorem exists_nodeClash_iff (hlive : ∀ p t, t ∈ live.liveOut.get p ↔ LiveOut code t (code.drop p))
    {d o : Temp} :
    (∃ node ∈ flow.nodes.toList, NodeClash m node (live.liveOut.get node.index) d o) ↔
      Clash m code d o := by
  unfold NodeClash
  simp only [mem_conflicts, hlive]
  constructor
  · rintro ⟨node, hnode, hd, hres, ho, hne, hreso, hsrc⟩
    rcases (mem_nodes hflow).1 hnode with ⟨p, i, hi, rfl⟩
    exact ⟨i, code.drop (p + 1), suffix_cons_iff.2 ⟨p, hi, rfl⟩, hd, drop_of_getElem? hi ▸ ho, hne,
      ⟨hres, hreso⟩, hsrc⟩
  · rintro ⟨i, rest, hsuffix, hat⟩
    rcases suffix_cons_iff.1 hsuffix with ⟨p, hi, rfl⟩
    exact ⟨describe i p, (mem_nodes hflow).2 ⟨p, i, hi, rfl⟩, hat.defined, hat.notReserved.1,
      drop_of_getElem? hi ▸ hat.live, hat.ne, hat.notReserved.2, hat.notSource⟩

theorem exists_nodeMove_iff {s d : Temp} :
    (∃ node ∈ flow.nodes.toList, NodeMove m node s d) ↔ Copies m code s d :=
  exists_node_iff hflow fun _ _ => Iff.rfl

theorem mem_flatMap_nodes_iff {t : Temp} :
    t ∈ flow.nodes.toList.flatMap (fun node => node.defs ++ node.uses) ↔ Mentions code t :=
  List.mem_flatMap.trans (exists_node_iff hflow fun _ _ => Iff.rfl)

end Nodes

/-- The built graph is that of the code. -/
theorem portrays_build (hflow : Of code flow)
    (hlive : ∀ p t, t ∈ live.liveOut.get p ↔ LiveOut code t (code.drop p)) :
    Portrays m code (build m flow live) := by
  have hclash := fun d o => exists_nodeClash_iff (m := m) hflow hlive (d := d) (o := o)
  have hcopy := fun s d => exists_nodeMove_iff (m := m) hflow (s := s) (d := d)
  have hreg := (grown_registers m).1
  have hdraw := (draws_addTemps m
    (flow.nodes.toList.flatMap fun node => node.defs ++ node.uses)).comp
    (Draws.foldl flow.nodes.toList fun node _ =>
      draws_addNode m node (live.liveOut.get node.index))
  refine ⟨hdraw.built .registers, fun t => ?_, fun x y => ?_, fun s d => ?_⟩
  · -- conflicts and copies bring no node that the code does not mention
    refine (hdraw.node hreg t).trans ?_
    rw [mem_temps_registers, mem_flatMap_nodes_iff hflow]
    constructor
    · rintro ((hm | ⟨node, hnode, ⟨u, hc | hc⟩ | ⟨u, hc | hc⟩⟩) | ht)
      · exact .inr hm
      · exact .inr ((hclash t u).1 ⟨node, hnode, hc⟩).mentions.1
      · exact .inr ((hclash u t).1 ⟨node, hnode, hc⟩).mentions.2
      · exact .inr ((hcopy t u).1 ⟨node, hnode, hc⟩).mentions.1
      · exact .inr ((hcopy u t).1 ⟨node, hnode, hc⟩).mentions.2
      · exact .inl ht
    · rintro (ht | hm)
      · exact .inr ht
      · exact .inl (.inl hm)
  · refine (hdraw.edge hreg x y).trans ?_
    rw [interferes_registers, ← hclash x y, ← hclash y x]
    constructor
    · rintro ((hnone | ⟨node, hnode, hc | hc⟩) | hreg)
      · exact hnone.elim
      · exact .inr (.inl ⟨node, hnode, hc⟩)
      · exact .inr (.inr ⟨node, hnode, hc⟩)
      · exact .inl hreg
    · rintro (hreg | ⟨node, hnode, hc⟩ | ⟨node, hnode, hc⟩)
      · exact .inr hreg
      · exact .inl (.inr ⟨node, hnode, .inl hc⟩)
      · exact .inl (.inr ⟨node, hnode, .inr hc⟩)
  · refine (hdraw.move hreg s d).trans ?_
    rw [← hcopy s d]
    refine (or_iff_left (not_hasMove_registers s d)).trans ?_
    exact or_iff_right not_false

end Interference

end TreeCompiler
