import TreeCompiler.Allocation
import TreeCompiler.Proofs.Failing

/-!
# Allocation rounds — what one round does

A round that is still allowed does one of four things (`Allocation.Turn`): the code has no coloring,
nothing is spilled and the allocation ends, spilling fails, or the next round goes on with the code
that spilling makes.  What is proved of all rounds is proved by these cases.
-/

namespace TreeCompiler

namespace Allocation

variable {m : Machine} {options : AllocOptions} {done left : Nat} {p : Progress} {g : Interference}
  {r : ColorResult} {frame : Frame} {n : Namer}

theorem allocateWithin_of_uncolored {e : AllocationError}
    (hcolor : colorCode m options p.introduced p.instrs = .error e) :
    allocateWithin m options done (left + 1) p = (.error e, p.namer) := by
  rw [allocateWithin, hcolor]

section Colored

variable (hcolor : colorCode m options p.introduced p.instrs = .ok (g, r))

include hcolor

theorem allocateWithin_of_last (hnone : r.spilled.isEmpty = true) :
    allocateWithin m options done (left + 1) p =
      ((registerNames m r g.temps .empty).map fun coloring =>
        ⟨if options.eliminateRedundantMoves then removeRedundantMoves coloring p.instrs
          else p.instrs, coloring, p.spilled, done + 1, p.frame⟩, p.namer) := by
  rw [allocateWithin, hcolor]
  exact if_pos hnone

variable (hsome : r.spilled.isEmpty = false)

include hsome

theorem allocateWithin_of_stop {e : SelectionError}
    (hspill : p.frame.spill m p.instrs r.spilled.toList p.namer = (.error e, frame, n)) :
    allocateWithin m options done (left + 1) p = (.error (.spill e), n) := by
  rw [allocateWithin, hcolor]
  dsimp only
  rw [if_neg (Bool.eq_false_iff.1 hsome), hspill]

theorem allocateWithin_of_next {s : SpilledCode}
    (hspill : p.frame.spill m p.instrs r.spilled.toList p.namer = (.ok s, frame, n)) :
    allocateWithin m options done (left + 1) p = allocateWithin m options (done + 1) left
      { instrs := s.instrs, frame, namer := n, introduced := p.introduced.union (.ofList s.fresh)
        spilled := p.spilled ++ r.spilled.toList } := by
  rw [allocateWithin, hcolor]
  dsimp only
  rw [if_neg (Bool.eq_false_iff.1 hsome), hspill]

end Colored

/-- What a round does while `left` more are allowed behind it. -/
inductive Turn (m : Machine) (options : AllocOptions) (done left : Nat) (p : Progress) :
    Except AllocationError Allocation × Namer → Prop
  | uncolored {e : AllocationError}
      (hcolor : colorCode m options p.introduced p.instrs = .error e) :
      Turn m options done left p (.error e, p.namer)
  | last {g : Interference} {r : ColorResult}
      (hcolor : colorCode m options p.introduced p.instrs = .ok (g, r))
      (hnone : r.spilled.isEmpty = true) :
      Turn m options done left p ((registerNames m r g.temps .empty).map fun coloring =>
        ⟨if options.eliminateRedundantMoves then removeRedundantMoves coloring p.instrs
          else p.instrs, coloring, p.spilled, done + 1, p.frame⟩, p.namer)
  | stop {g : Interference} {r : ColorResult} {e : SelectionError} {frame : Frame} {n : Namer}
      (hcolor : colorCode m options p.introduced p.instrs = .ok (g, r))
      (hsome : r.spilled.isEmpty = false)
      (hspill : p.frame.spill m p.instrs r.spilled.toList p.namer = (.error e, frame, n)) :
      Turn m options done left p (.error (.spill e), n)
  | next {g : Interference} {r : ColorResult} {s : SpilledCode} {frame : Frame} {n : Namer}
      (hcolor : colorCode m options p.introduced p.instrs = .ok (g, r))
      (hsome : r.spilled.isEmpty = false)
      (hspill : p.frame.spill m p.instrs r.spilled.toList p.namer = (.ok s, frame, n)) :
      Turn m options done left p (allocateWithin m options (done + 1) left
        { instrs := s.instrs, frame, namer := n, introduced := p.introduced.union (.ofList s.fresh)
          spilled := p.spilled ++ r.spilled.toList })

theorem turn (m : Machine) (options : AllocOptions) (done left : Nat) (p : Progress) :
    Turn m options done left p (allocateWithin m options done (left + 1) p) := by
  cases hcolor : colorCode m options p.introduced p.instrs with
  | error e =>
      rw [allocateWithin_of_uncolored hcolor]
      exact .uncolored hcolor
  | ok result =>
      obtain ⟨g, r⟩ := result
      cases hspilled : r.spilled.isEmpty with
      | true =>
          rw [allocateWithin_of_last hcolor hspilled]
          exact .last hcolor hspilled
      | false =>
          rcases hspill : p.frame.spill m p.instrs r.spilled.toList p.namer with ⟨e | s, frame, n⟩
          · rw [allocateWithin_of_stop hcolor hspilled hspill]
            exact .stop hcolor hspilled hspill
          · rw [allocateWithin_of_next hcolor hspilled hspill]
            exact .next hcolor hspilled hspill

/-- Temps that were spilled stay so, and others come behind them. -/
theorem exists_spilled {a : Allocation} (hok : (allocateWithin m options done left p).1 = .ok a) :
    ∃ ts, a.spilled = p.spilled ++ ts := by
  induction left generalizing done p with
  | zero => cases hok
  | succ left ih =>
      have hturn := turn m options done left p
      generalize allocateWithin m options done (left + 1) p = outcome at hturn hok
      cases hturn with
      | uncolored | stop => cases hok
      | last =>
          obtain ⟨names, -, rfl⟩ := map_eq_ok_iff.1 hok
          exact ⟨[], (List.append_nil _).symm⟩
      | next =>
          obtain ⟨ts, hts⟩ := ih hok
          exact ⟨_, hts.trans (List.append_assoc ..)⟩

end Allocation

end TreeCompiler
