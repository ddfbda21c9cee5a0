import TreeCompiler.Proofs.Coloring.Dense

/-!
# Coloring hosts — nodes that others were merged into

A host stands for at least one other node.  It is an end of a move (`Coherent.end_of_hosts`), and it
was in no dense set when it became a host, so that it never is in one later (`Coherent.not_dense`).
A node that is chosen to be spilled is in a dense set, and once chosen nothing is merged into it:
no host is ever chosen (`Coherent.not_hosts_of_chosen`).
-/

namespace TreeCompiler

namespace Coloring

variable {c d e start : Coloring} {A : Nat → Prop} {n u v : Nat}

/-- Another node was merged into node `n`. -/
def Hosts (c : Coloring) (n : Nat) : Prop :=
  ∃ w, c.state.get w = .coalesced ∧ c.representative w = n

theorem SameGraph.hosts_iff (hcd : SameGraph c d) : Hosts d n ↔ Hosts c n := by
  unfold Hosts
  simp only [hcd.state_iff (s := .coalesced) rfl, hcd.representative]

/-! ## How hosts come about -/

/-- A host was one before the step, or the step merges a node into it. -/
theorem Coherent.hosts_step (h : Coherent c) (hstep : c.step? = some d) (hn : Hosts d n) :
    Hosts c n ∨ ∃ v, Merges c n v ∧ SameGraph (c.absorb n v) d := by
  cases h.transition hstep with
  | stay hcd => exact .inl (hcd.hosts_iff.1 hn)
  | remove i hi hcd =>
      rcases hcd.hosts_iff.1 hn with ⟨w, hw, hrep⟩
      have hcoal : c.state.get i ≠ .coalesced := by
        rw [hi]
        decide
      rw [state_setState] at hw
      rw [representative_setState hcoal (by decide)] at hrep
      split at hw
      · cases hw
      · exact .inl ⟨w, hw, hrep⟩
  | merge u v hm hcd =>
      rcases hcd.hosts_iff.1 hn with ⟨w, hw, hrep⟩
      rw [hm.representative_absorb h] at hrep
      split at hrep
      · exact .inr ⟨v, hrep ▸ hm, hrep ▸ hcd⟩
      · rename_i hwv
        refine .inl ⟨w, ?_, hrep⟩
        rw [state_absorb] at hw
        split at hw
        · rename_i heq
          -- before the merge the merged node stood for itself
          subst heq
          exact absurd (representative_of_not_coalesced (not_coalesced_of_isListed hm.leaves)) hwv
        · exact hw

/-- A node takes part in a move. -/
def IsEnd (c : Coloring) (n : Nat) : Prop := ∃ e ∈ c.moves, n = e.1 ∨ n = e.2

theorem mergeEnds_left {e : Nat × Nat} (huv : c.mergeEnds e = (u, v)) :
    u = c.representative e.1 ∨ u = c.representative e.2 := by
  unfold mergeEnds at huv
  dsimp only at huv
  split at huv
  · exact .inr (Prod.mk.inj huv).1.symm
  · exact .inl (Prod.mk.inj huv).1.symm

/-- Hosts are ends of moves. -/
theorem Coherent.end_of_hosts (h : Coherent start) (hstart : ∀ n, ¬ Hosts start n)
    (hreach : Reaches start c) (hn : Hosts c n) : IsEnd c n := by
  induction hreach with
  | refl => exact absurd hn (hstart n)
  | @step c d hreach hstep ih =>
      have hc := h.reaches hreach
      unfold IsEnd
      rw [(hc.transition hstep).moves_eq]
      rcases hc.hosts_step hstep hn with hold | ⟨v, hm, _⟩
      · exact ih hold
      · rcases hm.move with ⟨m, e, he, _, hends⟩
        -- the end of the move stands for itself, or has a host that is an end
        have hrep : ∀ x, x = e.1 ∨ x = e.2 → n = c.representative x → IsEnd c n := by
          intro x hx hnx
          by_cases hcoal : c.state.get x = .coalesced
          · exact ih ⟨x, hcoal, hnx.symm⟩
          · rw [representative_of_not_coalesced hcoal] at hnx
            exact ⟨e, Array.mem_of_getElem? he, hx.imp hnx.trans hnx.trans⟩
        rcases mergeEnds_left hends with hn | hn
        · exact hrep e.1 (.inl rfl) hn
        · exact hrep e.2 (.inr rfl) hn

/-! ## Hosts are in no dense set -/

theorem Coherent.not_dense (h : Coherent start) (hstart : ∀ n, ¬ Hosts start n)
    (hreach : Reaches start c) (hn : Hosts c n) (hA : Dense c A) : ¬ A n := by
  induction hreach with
  | refl => exact absurd hn (hstart n)
  | step hreach hstep ih =>
      have hc := h.reaches hreach
      rcases hc.hosts_step hstep hn with hold | ⟨v, hm, hcd⟩
      · exact ih hold (hc.dense_step hstep hA)
      · exact (hcd.dense hA).not_mem_of_absorb hc hm

/-! ## Chosen nodes -/

/-- Node `n` is chosen to be spilled at some point of the run. -/
def Chosen (start : Coloring) (n : Nat) : Prop := ∃ c, Reaches start c ∧ Chooses c n

theorem Chooses.step?_eq (hn : Chooses c n) : c.step? = some (c.selectSpill n) := by
  rcases hn.best with ⟨first, rest, hlist, rfl⟩
  unfold step?
  rw [hn.simplify, hn.moves, hn.freeze, hlist]

/-- Nothing is merged into a node, nor the node into another one. -/
structure Alone (c : Coloring) (n : Nat) : Prop where
  state : c.state.get n = .simplify ∨ c.state.get n = .selectStack
  notHost : ¬ Hosts c n

theorem Alone.step (hn : Alone c n) (h : Coherent c) (hstep : c.step? = some d) : Alone d n := by
  -- the ends of a merge wait for a move
  have hwaits : ∀ {i}, c.state.get i = .precolored ∨ c.state.get i = .freeze ∨
      c.state.get i = .spill → n ≠ i := by
    rintro i hi rfl
    rcases hn.state with hs | hs
    · rw [hs] at hi
      revert hi
      decide
    · rw [hs] at hi
      revert hi
      decide
  have hends : ∀ {u v}, Merges c u v → n ≠ u ∧ n ≠ v := by
    intro u v hm
    rcases hm.move with ⟨m, e, he, hlive, heq⟩
    have hends := h.ends he hlive heq
    exact ⟨hwaits hends.left, hwaits hends.right⟩
  constructor
  · have hsame : ∀ {c : Coloring}, SameGraph c d →
        c.state.get n = .simplify ∨ c.state.get n = .selectStack →
        d.state.get n = .simplify ∨ d.state.get n = .selectStack := fun hcd hs =>
      hs.imp (hcd.simplify n) (hcd.state_iff rfl).2
    cases h.transition hstep with
    | stay hcd => exact hsame hcd hn.state
    | remove i hi hcd =>
        refine hsame hcd ?_
        rw [state_setState]
        split
        · exact .inr rfl
        · exact hn.state
    | merge u v hm hcd =>
        refine hsame hcd ?_
        rw [state_absorb, if_neg (hends hm).2]
        exact hn.state
  · intro hhost
    rcases h.hosts_step hstep hhost with hold | ⟨v, hm, _⟩
    · exact hn.notHost hold
    · exact (hends hm).1 rfl

theorem Alone.reaches (hn : Alone c n) (h : Coherent c) (hcd : Reaches c d) : Alone d n := by
  induction hcd with
  | refl => exact hn
  | step hreach hstep ih => exact ih.step (h.reaches hreach) hstep

/-- A run is empty or begins with the next step. -/
theorem Reaches.cases_head (hcd : Reaches c d) :
    c = d ∨ ∃ e, c.step? = some e ∧ Reaches e d := by
  induction hcd with
  | refl => exact .inl rfl
  | step _ hlast ih =>
      rcases ih with rfl | ⟨e, hstep, hed⟩
      · exact .inr ⟨_, hlast, .refl⟩
      · exact .inr ⟨e, hstep, .step hed hlast⟩

/-- Of two states of a run one comes first. -/
theorem Reaches.comparable (hc : Reaches start c) (hd : Reaches start d) :
    Reaches c d ∨ Reaches d c := by
  induction hc with
  | refl => exact .inl hd
  | step _ hstep ih =>
      rcases ih with hcd | hdc
      · rcases hcd.cases_head with rfl | ⟨e, hstep', hed⟩
        · exact .inr (.step .refl hstep)
        · cases hstep.symm.trans hstep'
          exact .inl hed
      · exact .inr (.step hdc hstep)

/-- A node that is chosen at some point is no host when the run has settled. -/
theorem Coherent.not_hosts_of_chosen (h : Coherent start) (hstart : ∀ n, ¬ Hosts start n)
    (hn : Chosen start n) (hreach : Reaches start d) (hdone : d.step? = none) : ¬ Hosts d n := by
  rcases hn with ⟨c, hc, hchooses⟩
  have hcoherent := h.reaches hc
  have hspill := hcoherent.state_of_chooses hchooses
  have hnot : ¬ Hosts c n := fun hhost =>
    h.not_dense hstart hc hhost (hcoherent.dense_of_chooses hchooses) (by rw [hspill]; rfl)
  have hsame : SameGraph c (c.selectSpill n) := .giveUp (.inr hspill)
  have halone : Alone (c.selectSpill n) n := by
    refine ⟨.inl ?_, fun hhost => hnot (hsame.hosts_iff.1 hhost)⟩
    refine (SameGraph.freezeMoves (c.setState n .simplify) n).simplify n ?_
    rw [state_setState, if_pos rfl]
  -- the run has settled, so the state in which the node is chosen comes first
  have hcd : Reaches (c.selectSpill n) d := by
    rcases hc.comparable hreach with hcd | hdc
    · rcases hcd.cases_head with rfl | ⟨e, hstep, hed⟩
      · cases hdone.symm.trans hchooses.step?_eq
      · cases hstep.symm.trans hchooses.step?_eq
        exact hed
    · rcases hdc.cases_head with rfl | ⟨e, hstep, _⟩
      · cases hdone.symm.trans hchooses.step?_eq
      · cases hdone.symm.trans hstep
  exact (halone.reaches (hcoherent.step hchooses.step?_eq) hcd).notHost

end Coloring

end TreeCompiler
