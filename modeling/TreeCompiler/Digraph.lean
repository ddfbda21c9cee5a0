import TreeCompiler.SortedSet

/-!
# Digraph — directed graphs over an array of nodes

Nodes are known by the order in which they were added.  Successors and predecessors are kept in
increasing order and say the same; an undirected edge is a pair of directed ones.
-/

namespace TreeCompiler

structure Digraph (α : Type) where
  nodes : Array α
  /-- Successors by node. -/
  succs : Array (SortedSet Nat)
  /-- Predecessors by node. -/
  preds : Array (SortedSet Nat)

namespace Digraph

variable {α : Type}

def empty : Digraph α := ⟨#[], #[], #[]⟩

instance : Inhabited (Digraph α) := ⟨empty⟩

def size (g : Digraph α) : Nat := g.nodes.size

def isEmpty (g : Digraph α) : Bool := g.size == 0

/-- Add a node; its number is the size before. -/
def addNode (g : Digraph α) (a : α) : Nat × Digraph α :=
  (g.size, ⟨g.nodes.push a, g.succs.push .empty, g.preds.push .empty⟩)

/-- All node numbers. -/
def ids (g : Digraph α) : List Nat := List.range g.size

def node? (g : Digraph α) (i : Nat) : Option α := g.nodes[i]?

def succsOf (g : Digraph α) (i : Nat) : SortedSet Nat := g.succs.getD i .empty

def predsOf (g : Digraph α) (i : Nat) : SortedSet Nat := g.preds.getD i .empty

def hasEdge (g : Digraph α) (a b : Nat) : Bool := (g.succsOf a).contains b

/-- Add an edge from `a` to `b`, which changes nothing if it is there already. -/
def addEdge (g : Digraph α) (a b : Nat) : Digraph α :=
  { g with succs := g.succs.modify a (·.insert b), preds := g.preds.modify b (·.insert a) }

/-- Add an edge in both directions. -/
def addUndirected (g : Digraph α) (a b : Nat) : Digraph α := (g.addEdge a b).addEdge b a

theorem hasEdge_iff {g : Digraph α} {a b : Nat} : g.hasEdge a b = true ↔ b ∈ g.succsOf a :=
  SortedSet.contains_iff

theorem size_addNode (g : Digraph α) (a : α) : (g.addNode a).2.size = g.size + 1 := by
  simp [addNode, size]

/-- A set for a new node is as good as none. -/
theorem getD_push_empty (sets : Array (SortedSet Nat)) (i : Nat) :
    (sets.push .empty).getD i .empty = sets.getD i .empty := by
  simp only [Array.getD_eq_getD_getElem?, Array.getElem?_push]
  split
  · rename_i hi
    rw [hi, Array.getElem?_eq_none (Nat.le_refl _)]
    rfl
  · rfl

theorem succsOf_addNode (g : Digraph α) (a : α) (i : Nat) :
    (g.addNode a).2.succsOf i = g.succsOf i := getD_push_empty g.succs i

theorem predsOf_addNode (g : Digraph α) (a : α) (i : Nat) :
    (g.addNode a).2.predsOf i = g.predsOf i := getD_push_empty g.preds i

theorem size_addEdge (g : Digraph α) (a b : Nat) : (g.addEdge a b).size = g.size := rfl

theorem mem_succsOf_addEdge {g : Digraph α} {a b i j : Nat} (ha : a < g.succs.size) :
    j ∈ (g.addEdge a b).succsOf i ↔ (i = a ∧ j = b) ∨ j ∈ g.succsOf i := by
  unfold succsOf addEdge
  simp only [Array.getD_eq_getD_getElem?, Array.getElem?_modify]
  by_cases h : a = i
  · subst h
    simp [ha, SortedSet.mem_insert]
  · simp [h, Ne.symm h]

theorem mem_predsOf_addEdge {g : Digraph α} {a b i j : Nat} (hb : b < g.preds.size) :
    i ∈ (g.addEdge a b).predsOf j ↔ (i = a ∧ j = b) ∨ i ∈ g.predsOf j := by
  unfold predsOf addEdge
  simp only [Array.getD_eq_getD_getElem?, Array.getElem?_modify]
  by_cases h : b = j
  · subst h
    simp [hb, SortedSet.mem_insert]
  · simp [h, Ne.symm h]

end Digraph

end TreeCompiler
