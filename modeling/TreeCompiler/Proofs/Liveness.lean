import Mathlib.Algebra.Order.BigOperators.Group.Finset
import TreeCompiler.Liveness
import TreeCompiler.Proofs.FlowGraph

/-!
# Liveness — the analysis finds what is live

A temp is live at a rest of the code when control may reach a use of it with no definition on the
way (`Live`).  The analysis never loses a member, settles within its limit, and ends with exactly
the temps that are live (`Liveness.analyze_spec`).
-/

namespace TreeCompiler

open FlowGraph

variable {code here dest : List Instr} {flow : FlowGraph} {live : LiveSets} {t : Temp} {p : Nat}

/-- A temp whose value may be used when control is at a rest of the code. -/
inductive Live (code : List Instr) (t : Temp) : List Instr → Prop
  | use {i : Instr} {rest : List Instr} (h : t ∈ i.uses) : Live code t (i :: rest)
  | through {i : Instr} {rest dest : List Instr} (hdef : t ∉ i.defs)
      (hnext : Next code (i :: rest) dest) (h : Live code t dest) : Live code t (i :: rest)

/-- A temp whose value may be used behind the first instruction. -/
def LiveOut (code : List Instr) (t : Temp) (here : List Instr) : Prop :=
  ∃ dest, Next code here dest ∧ Live code t dest

/-- A live temp is used somewhere. -/
theorem Live.exists_use (h : Live code t here) (hhere : here <:+ code) :
    ∃ i ∈ code, t ∈ i.uses := by
  induction h with
  | @use i rest huse => exact ⟨i, hhere.mem List.mem_cons_self, huse⟩
  | through hdef hnext hlive ih => exact ih (hnext.suffix hhere)

theorem LiveOut.exists_use (h : LiveOut code t here) (hhere : here <:+ code) :
    ∃ i ∈ code, t ∈ i.uses := by
  rcases h with ⟨dest, hnext, hlive⟩
  exact hlive.exists_use (hnext.suffix hhere)

/-! ## Liveness at the nodes of a flow graph -/

namespace FlowGraph

/-- A temp whose value may be used when control is at a node. -/
inductive LiveAt (flow : FlowGraph) (t : Temp) : Nat → Prop
  | use {p : Nat} {node : FlowNode} (hnode : flow.node? p = some node) (h : t ∈ node.uses) :
      LiveAt flow t p
  | through {p q : Nat} {node : FlowNode} (hnode : flow.node? p = some node) (hdef : t ∉ node.defs)
      (hq : q ∈ flow.succsOf p) (h : LiveAt flow t q) : LiveAt flow t p

/-- A temp whose value may be used behind a node. -/
def LiveBehind (flow : FlowGraph) (t : Temp) (p : Nat) : Prop :=
  ∃ q ∈ flow.succsOf p, flow.LiveAt t q

/-- The temps that the nodes have as operands, each once. -/
def temps (flow : FlowGraph) : TempSet :=
  .ofList (flow.nodes.toList.flatMap fun node => node.defs ++ node.uses)

theorem LiveAt.mem_temps (h : LiveAt flow t p) : t ∈ flow.temps := by
  induction h with
  | use hnode huse =>
      have hmem := Array.mem_toList_iff.2 (Array.mem_of_getElem? hnode)
      exact SortedSet.mem_ofList.2 (List.mem_flatMap.2 ⟨_, hmem, List.mem_append_right _ huse⟩)
  | through _ _ _ _ ih => exact ih

/-- There are no more temps than operands. -/
theorem size_temps_le_mentions (flow : FlowGraph) :
    flow.temps.size ≤ Liveness.mentions flow := by
  have hfold : ∀ (nodes : List FlowNode) (n : Nat),
      nodes.foldl (fun n node => n + node.defs.length + node.uses.length) n =
        n + (nodes.flatMap fun node => node.defs ++ node.uses).length := by
    intro nodes
    induction nodes with
    | nil => simp
    | cons node nodes ih =>
        intro n
        rw [List.foldl_cons, ih, List.flatMap_cons, List.length_append, List.length_append]
        omega
  calc
    flow.temps.size ≤ (flow.nodes.toList.flatMap fun node => node.defs ++ node.uses).length :=
          flow.temps.nodup.length_le_of_subset fun t ht => SortedSet.mem_ofList.1 ht
    _ = flow.nodes.toList.foldl (fun n node => n + node.defs.length + node.uses.length) 0 := by
          rw [hfold, Nat.zero_add]
    _ = Liveness.mentions flow := Array.foldl_toList _

/-- The nodes of the flow graph of a code are its instructions. -/
theorem Of.node?_eq_some_iff (hflow : Of code flow) {node : FlowNode} :
    flow.node? p = some node ↔ ∃ i rest, code.drop p = i :: rest ∧ describe i p = node := by
  rw [hflow.node?, Option.map_eq_some_iff, ← List.head?_drop]
  constructor
  · rintro ⟨i, hi, hnode⟩
    rcases List.head?_eq_some_iff.1 hi with ⟨rest, hrest⟩
    exact ⟨i, rest, hrest, hnode⟩
  · rintro ⟨i, rest, hrest, hnode⟩
    exact ⟨i, by rw [hrest, List.head?_cons], hnode⟩

theorem Of.live_of_liveAt (hflow : Of code flow) (h : flow.LiveAt t p) :
    Live code t (code.drop p) := by
  induction h with
  | use hnode huse =>
      rcases hflow.node?_eq_some_iff.1 hnode with ⟨i, rest, hrest, rfl⟩
      rw [hrest]
      exact .use huse
  | through hnode hdef hq _ ih =>
      rcases hflow.node?_eq_some_iff.1 hnode with ⟨i, rest, hrest, rfl⟩
      have hnext := hflow.next hq
      rw [hrest] at hnext ⊢
      exact .through hdef hnext ih

theorem Of.liveAt_of_live (hflow : Of code flow) (h : Live code t here)
    (hhere : here = code.drop p) : flow.LiveAt t p := by
  induction h generalizing p with
  | use huse => exact .use (hflow.node?_eq_some_iff.2 ⟨_, _, hhere.symm, rfl⟩) huse
  | through hdef hnext hlive ih =>
      have hnode := hflow.node?_eq_some_iff.2 ⟨_, _, hhere.symm, rfl⟩
      rcases hflow.exists_succ (hhere ▸ hnext) with rfl | ⟨q, hq, rfl⟩
      · cases hlive
      · exact .through hnode hdef hq (ih rfl)

/-- At the nodes of the flow graph of a code the same temps are live as at the rests of the code. -/
theorem Of.liveAt_iff (hflow : Of code flow) : flow.LiveAt t p ↔ Live code t (code.drop p) :=
  ⟨hflow.live_of_liveAt, fun h => hflow.liveAt_of_live h rfl⟩

theorem Of.liveBehind_iff (hflow : Of code flow) :
    flow.LiveBehind t p ↔ LiveOut code t (code.drop p) := by
  constructor
  · rintro ⟨q, hq, hlive⟩
    exact ⟨code.drop q, hflow.next hq, hflow.live_of_liveAt hlive⟩
  · rintro ⟨dest, hnext, hlive⟩
    rcases hflow.exists_succ hnext with rfl | ⟨q, hq, rfl⟩
    · cases hlive
    · exact ⟨q, hq, hflow.liveAt_of_live hlive rfl⟩

end FlowGraph

namespace LiveSets

/-! ## The sets that a visit computes -/

theorem mem_outOf (live : LiveSets) (flow : FlowGraph) (p : Nat) :
    t ∈ live.outOf flow p ↔ ∃ q ∈ flow.succsOf p, t ∈ live.liveIn.get q := by
  have hfold : ∀ (qs : List Nat) (s : TempSet),
      t ∈ qs.foldl (fun s q => s.union (live.liveIn.get q)) s ↔
        t ∈ s ∨ ∃ q ∈ qs, t ∈ live.liveIn.get q := by
    intro qs
    induction qs with
    | nil => simp
    | cons q qs ih =>
        intro s
        rw [List.foldl_cons, ih, SortedSet.mem_union, List.exists_mem_cons_iff, or_assoc]
  have hnone := SortedSet.not_mem_empty t
  exact (hfold (flow.succsOf p).toList .empty).trans (or_iff_right hnone)

/-- `live'` has all members of `live`. -/
structure Le (live live' : LiveSets) : Prop where
  liveIn : ∀ p, ∀ t ∈ live.liveIn.get p, t ∈ live'.liveIn.get p
  liveOut : ∀ p, ∀ t ∈ live.liveOut.get p, t ∈ live'.liveOut.get p

theorem Le.outOf {live' : LiveSets} (h : Le live live') (ht : t ∈ live.outOf flow p) :
    t ∈ live'.outOf flow p := by
  rcases (mem_outOf live flow p).1 ht with ⟨q, hq, hlive⟩
  exact (mem_outOf live' flow p).2 ⟨q, hq, h.liveIn q t hlive⟩

theorem Le.inOf {live' : LiveSets} {node : FlowNode} (h : Le live live')
    (ht : t ∈ LiveSets.inOf node (live.outOf flow p)) :
    t ∈ LiveSets.inOf node (live'.outOf flow p) :=
  mem_inOf.2 ((mem_inOf.1 ht).imp_right (And.imp_left h.outOf))

/-- Sets that the analysis may reach: each is within what a visit would compute, and has only live
temps. -/
structure Sound (flow : FlowGraph) (live : LiveSets) : Prop where
  inn : ∀ p node, flow.node? p = some node →
    ∀ t ∈ live.liveIn.get p, t ∈ inOf node (live.outOf flow p)
  out : ∀ p, ∀ t ∈ live.liveOut.get p, t ∈ live.outOf flow p
  liveIn : ∀ p, ∀ t ∈ live.liveIn.get p, flow.LiveAt t p

/-- A visit of a node would change nothing. -/
def Stable (flow : FlowGraph) (live : LiveSets) (p : Nat) : Prop :=
  ∀ node, flow.node? p = some node →
    live.liveIn.get p = inOf node (live.outOf flow p) ∧ live.liveOut.get p = live.outOf flow p

theorem sound_empty : Sound flow .empty := by
  refine ⟨?_, ?_, ?_⟩
  · intro p node _ t ht
    exact absurd ht (SortedSet.not_mem_empty t)
  · intro p t ht
    exact absurd ht (SortedSet.not_mem_empty t)
  · intro p t ht
    exact absurd ht (SortedSet.not_mem_empty t)

theorem Sound.outOf (h : Sound flow live) (ht : t ∈ live.outOf flow p) : flow.LiveBehind t p := by
  rcases (mem_outOf live flow p).1 ht with ⟨q, hq, hlive⟩
  exact ⟨q, hq, h.liveIn q t hlive⟩

theorem Sound.liveOut (h : Sound flow live) (ht : t ∈ live.liveOut.get p) : flow.LiveBehind t p :=
  h.outOf (h.out p t ht)

theorem Sound.inOf (h : Sound flow live) {node : FlowNode} (hnode : flow.node? p = some node)
    (ht : t ∈ inOf node (live.outOf flow p)) : flow.LiveAt t p := by
  rcases mem_inOf.1 ht with huse | ⟨hlive, hdef⟩
  · exact .use hnode huse
  · rcases h.outOf hlive with ⟨q, hq, hlive⟩
    exact .through hnode hdef hq hlive

section Visit

variable {node : FlowNode} (h : Sound flow live) (hnode : flow.node? p = some node)

include h hnode

theorem Sound.le_set : Le live ⟨live.liveIn.set p (LiveSets.inOf node (live.outOf flow p)),
    live.liveOut.set p (live.outOf flow p)⟩ where
  liveIn := Table.forall_get_set (P := fun q s => ∀ t ∈ live.liveIn.get q, t ∈ s)
    (h.inn p node hnode) fun _ _ ht => ht
  liveOut := Table.forall_get_set (P := fun q s => ∀ t ∈ live.liveOut.get q, t ∈ s)
    (h.out p) fun _ _ ht => ht

theorem Sound.set : Sound flow ⟨live.liveIn.set p (LiveSets.inOf node (live.outOf flow p)),
    live.liveOut.set p (live.outOf flow p)⟩ := by
  -- what was computed from the old sets is within what the new ones give
  have hle := h.le_set hnode
  refine { inn := ?inn, out := ?out, liveIn := ?liveIn }
  case inn =>
    refine Table.forall_get_set (P := fun q s => ∀ node', flow.node? q = some node' → ∀ t ∈ s,
      t ∈ LiveSets.inOf node' (LiveSets.outOf _ flow q)) ?_ fun q node' hnode' t ht => ?_
    · intro node' hnode' t ht
      cases hnode.symm.trans hnode'
      exact hle.inOf ht
    · exact hle.inOf (h.inn q node' hnode' t ht)
  case out =>
    exact Table.forall_get_set (P := fun q s => ∀ t ∈ s, t ∈ LiveSets.outOf _ flow q)
      (fun _ ht => hle.outOf ht) fun q t ht => hle.outOf (h.out q t ht)
  case liveIn =>
    exact Table.forall_get_set (P := fun q s => ∀ t ∈ s, flow.LiveAt t q)
      (fun _ ht => h.inOf hnode ht) fun q t ht => h.liveIn q t ht

end Visit

/-! ## Growth -/

/-- The number of members of all sets. -/
def weight (flow : FlowGraph) (live : LiveSets) : Nat :=
  ∑ p ∈ Finset.range flow.size, ((live.liveIn.get p).size + (live.liveOut.get p).size)

theorem Le.weight_lt {live' : LiveSets} (h : Le live live') (hp : p < flow.size)
    (hne : (live'.liveIn.get p).size ≠ (live.liveIn.get p).size ∨
      (live'.liveOut.get p).size ≠ (live.liveOut.get p).size) :
    weight flow live < weight flow live' := by
  have hin : ∀ q, (live.liveIn.get q).size ≤ (live'.liveIn.get q).size :=
    fun q => SortedSet.size_le_of_subset (h.liveIn q)
  have hout : ∀ q, (live.liveOut.get q).size ≤ (live'.liveOut.get q).size :=
    fun q => SortedSet.size_le_of_subset (h.liveOut q)
  refine Finset.sum_lt_sum (fun q _ => Nat.add_le_add (hin q) (hout q)) ?_
  refine ⟨p, Finset.mem_range.2 hp, ?_⟩
  have hinp := hin p
  have houtp := hout p
  omega

theorem Sound.weight_le (h : Sound flow live) :
    weight flow live ≤ 2 * flow.size * flow.temps.size := by
  have hbound : ∀ p, (live.liveIn.get p).size + (live.liveOut.get p).size ≤
      2 * flow.temps.size := by
    intro p
    have hin : (live.liveIn.get p).size ≤ flow.temps.size :=
      SortedSet.size_le_of_subset fun t ht => (h.liveIn p t ht).mem_temps
    have hout : (live.liveOut.get p).size ≤ flow.temps.size := by
      refine SortedSet.size_le_of_subset fun t ht => ?_
      rcases h.liveOut ht with ⟨q, _, hlive⟩
      exact hlive.mem_temps
    omega
  calc
    weight flow live ≤ (Finset.range flow.size).card • (2 * flow.temps.size) :=
          Finset.sum_le_card_nsmul _ _ _ fun p _ => hbound p
    _ = flow.size * (2 * flow.temps.size) := by rw [Finset.card_range, Nat.nsmul_eq_mul]
    _ = 2 * flow.size * flow.temps.size := by rw [Nat.mul_left_comm, Nat.mul_assoc]

/-! ## Visits and passes -/

/-- Visit nodes one after the other. -/
def visits (flow : FlowGraph) (order : List Nat) (s : LiveSets × Bool) :
    Except LivenessError (LiveSets × Bool) :=
  order.foldlM (fun s p => visit flow p s) s

theorem pass_eq_visits (n : Nat) (s : LiveSets × Bool) :
    pass flow n s = visits flow (List.range n).reverse s := by
  induction n generalizing s with
  | zero => rfl
  | succ n ih =>
      unfold pass visits
      rw [List.range_succ, List.reverse_append, List.reverse_singleton, List.singleton_append,
        List.foldlM_cons]
      exact bind_congr fun s' => ih s'

/-- Make passes in a given order until one changes nothing. -/
def settleAlong (flow : FlowGraph) (order : List Nat) (limit done : Nat) (live : LiveSets) :
    Except LivenessError (LiveSets × Nat) := do
  let (live', changed) ← visits flow order (live, false)
  if changed then
    match limit with
    | 0 => throw .unsettled
    | more + 1 => settleAlong flow order more (done + 1) live'
  else return (live', done + 1)

theorem settle_eq_settleAlong (limit done : Nat) (live : LiveSets) :
    settle flow limit done live =
      settleAlong flow (List.range flow.size).reverse limit done live := by
  induction limit generalizing done live with
  | zero =>
      unfold settle settleAlong
      rw [pass_eq_visits]
  | succ limit ih =>
      unfold settle settleAlong
      simp only [pass_eq_visits, ih]

/-- Either nothing changed, or the sets grew and the flag was raised. -/
def Outcome (flow : FlowGraph) (stable : Prop) (s s' : LiveSets × Bool) : Prop :=
  (s' = s ∧ stable) ∨ (s'.2 = true ∧ weight flow s.1 < weight flow s'.1)

theorem visit_spec (h : Sound flow live) (p : Nat) (changed : Bool) :
    ∃ s, visit flow p (live, changed) = .ok s ∧ Sound flow s.1 ∧
      Outcome flow (Stable flow live p) (live, changed) s := by
  unfold visit
  cases hnode : flow.node? p with
  | none =>
      -- there is no such node, and nothing to visit
      refine ⟨_, rfl, h, .inl ⟨rfl, ?_⟩⟩
      intro node hsome
      rw [hnode] at hsome
      cases hsome
  | some node =>
      have hin : (live.liveIn.get p).isSubset (LiveSets.inOf node (live.outOf flow p)) = true :=
        SortedSet.isSubset_iff.2 (h.inn p node hnode)
      have hout : (live.liveOut.get p).isSubset (live.outOf flow p) = true :=
        SortedSet.isSubset_iff.2 (h.out p)
      simp only [hin, hout, Bool.not_true, Bool.or_self, Bool.false_eq_true, if_false]
      split
      · rename_i hne
        refine ⟨_, rfl, h.set hnode, .inr ⟨rfl, ?_⟩⟩
        have hp : p < flow.size := (Array.getElem?_eq_some_iff.1 hnode).1
        refine (h.le_set hnode).weight_lt hp ?_
        simpa [Table.get_set] using hne
      · rename_i heq
        refine ⟨_, rfl, h, .inl ⟨rfl, ?_⟩⟩
        intro node' hnode'
        cases hnode.symm.trans hnode'
        -- sets within those that a visit computes are the same if they are of the same size
        have hsize : (LiveSets.inOf node (live.outOf flow p)).size = (live.liveIn.get p).size ∧
            (live.outOf flow p).size = (live.liveOut.get p).size := by
          simpa using heq
        exact ⟨SortedSet.eq_of_subset (h.inn p node hnode) hsize.1,
          SortedSet.eq_of_subset (h.out p) hsize.2⟩

theorem visits_spec (order : List Nat) (h : Sound flow live) (changed : Bool) :
    ∃ s, visits flow order (live, changed) = .ok s ∧ Sound flow s.1 ∧
      Outcome flow (∀ p ∈ order, Stable flow live p) (live, changed) s := by
  induction order generalizing live changed with
  | nil => exact ⟨_, rfl, h, .inl ⟨rfl, fun p hp => absurd hp List.not_mem_nil⟩⟩
  | cons p order ih =>
      rcases visit_spec h p changed with ⟨⟨live₁, changed₁⟩, hvisit, h₁, hfirst⟩
      rcases ih h₁ changed₁ with ⟨s, hvisits, hs, hrest⟩
      refine ⟨s, ?_, hs, ?_⟩
      · unfold visits
        rw [List.foldlM_cons, hvisit]
        exact hvisits
      · rcases hfirst with ⟨heq, hstable⟩ | ⟨hflag, hlt⟩
        · cases heq
          rcases hrest with ⟨rfl, hall⟩ | hgrown
          · exact .inl ⟨rfl, List.forall_mem_cons.2 ⟨hstable, hall⟩⟩
          · exact .inr hgrown
        · rcases hrest with ⟨rfl, _⟩ | ⟨hflag', hlt'⟩
          · exact .inr ⟨hflag, hlt⟩
          · exact .inr ⟨hflag', Nat.lt_trans hlt hlt'⟩

theorem settleAlong_of_unchanged {order : List Nat} {live' : LiveSets} (limit done : Nat)
    (h : visits flow order (live, false) = .ok (live', false)) :
    settleAlong flow order limit done live = .ok (live', done + 1) := by
  unfold settleAlong
  rw [h]
  rfl

theorem settleAlong_of_changed {order : List Nat} {live' : LiveSets} (limit done : Nat)
    (h : visits flow order (live, false) = .ok (live', true)) :
    settleAlong flow order (limit + 1) done live =
      settleAlong flow order limit (done + 1) live' := by
  rw [settleAlong, h]
  rfl

/-- With room for the sets to grow, the passes come to an end; all but the last of them make the
sets grow. -/
theorem settleAlong_spec (order : List Nat) (limit done : Nat) (h : Sound flow live)
    (hroom : 2 * flow.size * flow.temps.size ≤ weight flow live + limit) :
    ∃ live' n, settleAlong flow order limit done live = .ok (live', n) ∧ Sound flow live' ∧
      (∀ p ∈ order, Stable flow live' p) ∧
      n + weight flow live ≤ done + 1 + weight flow live' := by
  induction limit generalizing done live with
  | zero =>
      rcases visits_spec order h false with ⟨⟨live', changed⟩, hvisits, h', hout⟩
      rcases hout with ⟨heq, hstable⟩ | ⟨_, hlt⟩
      · cases heq
        exact ⟨live, done + 1, settleAlong_of_unchanged 0 done hvisits, h, hstable, Nat.le_refl _⟩
      · exact absurd h'.weight_le (Nat.not_le_of_lt (Nat.lt_of_le_of_lt hroom hlt))
  | succ limit ih =>
      rcases visits_spec order h false with ⟨⟨live', changed⟩, hvisits, h', hout⟩
      rcases hout with ⟨heq, hstable⟩ | ⟨hflag, hlt⟩
      · cases heq
        exact ⟨live, done + 1, settleAlong_of_unchanged (limit + 1) done hvisits, h, hstable,
          Nat.le_refl _⟩
      · dsimp only at hflag hlt h'
        subst hflag
        rcases ih (done + 1) h' (by omega) with ⟨last, n, hsettle, hsound, hstable, hpasses⟩
        refine ⟨last, n, ?_, hsound, hstable, by omega⟩
        rw [settleAlong_of_changed limit done hvisits]
        exact hsettle

/-- What is live is in stable sets. -/
theorem mem_of_liveAt (hstable : ∀ p < flow.size, Stable flow live p) (h : flow.LiveAt t p) :
    t ∈ live.liveIn.get p := by
  have hget : ∀ {q node}, flow.node? q = some node →
      live.liveIn.get q = LiveSets.inOf node (live.outOf flow q) := by
    intro q node hnode
    exact (hstable q (Array.getElem?_eq_some_iff.1 hnode).1 node hnode).1
  induction h with
  | use hnode huse =>
      rw [hget hnode]
      exact mem_inOf.2 (.inl huse)
  | through hnode hdef hq _ ih =>
      rw [hget hnode]
      exact mem_inOf.2 (.inr ⟨(mem_outOf live flow _).2 ⟨_, hq, ih⟩, hdef⟩)

/-- Sets that have the temps that are live, and no others. -/
structure Exact (flow : FlowGraph) (live : LiveSets) : Prop where
  liveIn : ∀ p t, t ∈ live.liveIn.get p ↔ flow.LiveAt t p
  liveOut : ∀ p, ∀ t ∈ live.liveOut.get p, flow.LiveBehind t p
  mem_liveOut : ∀ p < flow.size, ∀ t, flow.LiveBehind t p → t ∈ live.liveOut.get p

/-- Stable sets that have only live temps have all of them. -/
theorem Sound.exact (h : Sound flow live) (hstable : ∀ p < flow.size, Stable flow live p) :
    Exact flow live := by
  refine ⟨fun p t => ⟨h.liveIn p t, mem_of_liveAt hstable⟩, fun p t => h.liveOut, ?_⟩
  rintro p hp t ⟨q, hq, hlive⟩
  have hnode : flow.node? p = some flow.nodes[p] := Array.getElem?_eq_getElem hp
  rw [(hstable p hp _ hnode).2, mem_outOf]
  exact ⟨q, hq, mem_of_liveAt hstable hlive⟩

/-- Passes in any order that leaves no node out end with exactly the live temps, after no more
passes than the sets can grow and the one that finds that nothing changes. -/
theorem settleAlong_exact {order : List Nat} (horder : ∀ p < flow.size, p ∈ order) (limit : Nat)
    (hroom : 2 * flow.size * flow.temps.size ≤ limit) :
    ∃ live n, settleAlong flow order limit 0 .empty = .ok (live, n) ∧
      n ≤ 2 * flow.size * flow.temps.size + 1 ∧ Exact flow live := by
  rcases settleAlong_spec order limit 0 (sound_empty : Sound flow _) (by omega) with
    ⟨live, n, hsettle, hsound, hstable, hpasses⟩
  have hweight := hsound.weight_le
  exact ⟨live, n, hsettle, by omega, hsound.exact fun p hp => hstable p (horder p hp)⟩

end LiveSets

/-- The analysis of a flow graph succeeds, and its sets are the live temps. -/
theorem Liveness.analyze_exact (flow : FlowGraph) : ∃ live, analyze flow = .ok live ∧
    live.passes ≤ 2 * flow.size * flow.temps.size + 1 ∧ LiveSets.Exact flow live.toLiveSets := by
  have horder : ∀ p < flow.size, p ∈ (List.range flow.size).reverse := by
    intro p hp
    exact List.mem_reverse.2 (List.mem_range.2 hp)
  have hroom : 2 * flow.size * flow.temps.size ≤ 2 * flow.size * mentions flow :=
    Nat.mul_le_mul_left _ flow.size_temps_le_mentions
  rcases LiveSets.settleAlong_exact horder _ hroom with ⟨live, n, hsettle, hpasses, hexact⟩
  refine ⟨{ live with size := flow.size, passes := n }, ?_, hpasses, hexact⟩
  unfold analyze
  rw [LiveSets.settle_eq_settleAlong, hsettle]
  rfl

/-- The analysis of the flow graph of a code succeeds, and its sets are the live temps. -/
theorem Liveness.analyze_spec (hflow : Of code flow) : ∃ live, analyze flow = .ok live ∧
    (∀ p t, t ∈ live.liveIn.get p ↔ Live code t (code.drop p)) ∧
    ∀ p t, t ∈ live.liveOut.get p ↔ LiveOut code t (code.drop p) := by
  rcases analyze_exact flow with ⟨live, hanalyze, _, hexact⟩
  refine ⟨live, hanalyze, ?_, ?_⟩
  · intro p t
    exact (hexact.liveIn p t).trans hflow.liveAt_iff
  · intro p t
    refine ⟨fun ht => hflow.liveBehind_iff.1 (hexact.liveOut p t ht), ?_⟩
    intro hlive
    have hp : p < flow.size := by
      rcases hlive with ⟨dest, hnext, _⟩
      rw [hflow.size]
      refine Nat.lt_of_not_le fun hle => ?_
      rw [List.drop_eq_nil_of_le hle] at hnext
      cases hnext
    exact hexact.mem_liveOut p hp t (hflow.liveBehind_iff.2 hlive)

end TreeCompiler
