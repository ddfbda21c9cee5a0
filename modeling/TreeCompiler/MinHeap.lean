/-!
# MinHeap — a bag of numbers that gives back the least first
-/

namespace TreeCompiler

/-- The numbers in the bag, in increasing order and with repetitions. -/
structure MinHeap where
  items : List Nat
  increasing : items.Pairwise (· ≤ ·)

namespace MinHeap

def empty : MinHeap := ⟨[], .nil⟩

/-- Put a number where it belongs in an increasing list. -/
def place (n : Nat) : List Nat → List Nat
  | [] => [n]
  | m :: r => if n ≤ m then n :: m :: r else m :: place n r

theorem mem_place {n x : Nat} {l : List Nat} : x ∈ place n l ↔ x = n ∨ x ∈ l := by
  induction l with
  | nil => simp [place]
  | cons m r ih =>
      unfold place
      split
      · simp
      · simp [ih, or_left_comm]

theorem increasing_place {n : Nat} {l : List Nat} (h : l.Pairwise (· ≤ ·)) :
    (place n l).Pairwise (· ≤ ·) := by
  induction l with
  | nil => simp [place]
  | cons m r ih =>
      rw [List.pairwise_cons] at h
      unfold place
      split
      · rename_i hnm
        refine List.pairwise_cons.2 ⟨?_, List.pairwise_cons.2 h⟩
        intro x hx
        rcases List.mem_cons.1 hx with rfl | hx
        · exact hnm
        · exact Nat.le_trans hnm (h.1 x hx)
      · rename_i hnm
        refine List.pairwise_cons.2 ⟨?_, ih h.2⟩
        intro x hx
        rcases mem_place.1 hx with rfl | hx
        · omega
        · exact h.1 x hx

def push (h : MinHeap) (n : Nat) : MinHeap := ⟨place n h.items, increasing_place h.increasing⟩

def pop? (h : MinHeap) : Option (Nat × MinHeap) :=
  match h with
  | ⟨[], _⟩ => none
  | ⟨n :: r, s⟩ => some (n, ⟨r, (List.pairwise_cons.1 s).2⟩)

/-- Take numbers from an increasing list while they leave no gap behind `least`; the answer is the
first gap and what is left behind the number that showed it. -/
def firstGap (least : Nat) : List Nat → Nat × List Nat
  | [] => (least, [])
  | n :: r => if least < n then (least, r) else firstGap (if n = least then least + 1 else least) r

theorem firstGap_suffix (least : Nat) (l : List Nat) : (firstGap least l).2 <:+ l := by
  induction l generalizing least with
  | nil => exact List.suffix_rfl
  | cons n r ih =>
      unfold firstGap
      split
      · exact List.suffix_cons n r
      · exact (ih _).trans (List.suffix_cons n r)

/-- The least number that is not in the bag.  The numbers looked at on the way are taken out. -/
def smallestAbsent (h : MinHeap) : Nat × MinHeap :=
  ((firstGap 0 h.items).1,
    ⟨(firstGap 0 h.items).2, h.increasing.sublist (firstGap_suffix 0 h.items).sublist⟩)

end MinHeap

end TreeCompiler
