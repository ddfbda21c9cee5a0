import TreeCompiler.Main
import TreeCompiler.Machine.TwoRegisters
import TreeCompiler.Proofs.Coloring.Frame
import TreeCompiler.Proofs.Coloring.Worklists
import TreeCompiler.Proofs.Coloring.Alias
import TreeCompiler.Proofs.Coloring.Invariant
import TreeCompiler.Proofs.Coloring.Changes
import TreeCompiler.Proofs.Coloring.Edges
import TreeCompiler.Proofs.Coloring.Removal
import TreeCompiler.Proofs.Coloring.Merge
import TreeCompiler.Proofs.Coloring.Transition
import TreeCompiler.Proofs.Coloring.Start
import TreeCompiler.Proofs.Coloring.Settle
import TreeCompiler.Proofs.Coloring.Assign
import TreeCompiler.Proofs.Coloring.Labels
import TreeCompiler.Proofs.Coloring.Runs
import TreeCompiler.Proofs.Coloring.Separated
import TreeCompiler.Proofs.MinHeap
import TreeCompiler.Proofs.Coloring.Result
import TreeCompiler.Proofs.Coloring.Proper
import TreeCompiler.Proofs.Coloring.Dense
import TreeCompiler.Proofs.Coloring.Hosts
import TreeCompiler.Proofs.Coloring.Room
import TreeCompiler.Proofs.FlowGraph
import TreeCompiler.Proofs.ControlFlow
import TreeCompiler.Proofs.Liveness
import TreeCompiler.Proofs.PathLiveness
import TreeCompiler.Proofs.Conflicts
import TreeCompiler.Proofs.ConflictPaths
import TreeCompiler.Proofs.Coloring.Outcome
import TreeCompiler.Proofs.Coloring.Easy
import TreeCompiler.Proofs.Coloring.Avoided
import TreeCompiler.Proofs.Execution
import TreeCompiler.Proofs.SpillCode
import TreeCompiler.Proofs.SpillRounds
import TreeCompiler.Proofs.SpillRun
import TreeCompiler.Proofs.Places
import TreeCompiler.Proofs.Registers
import TreeCompiler.Proofs.Behaviour
import TreeCompiler.Proofs.Decided
import TreeCompiler.Proofs.Blocks
import TreeCompiler.Proofs.BlockLiveness
import TreeCompiler.Proofs.Settled
import TreeCompiler.Proofs.Selection.Memory
import TreeCompiler.Proofs.Selection.Assembly
import TreeCompiler.Proofs.Selection.Comparison
import TreeCompiler.Proofs.Selection.Processor
import TreeCompiler.Proofs.Selection.Evaluation
import TreeCompiler.Proofs.Selection.Computation
import TreeCompiler.Proofs.Selection.Tiles
import TreeCompiler.Proofs.Selection.Calls
import TreeCompiler.Proofs.Selection.Value
import TreeCompiler.Proofs.Selection.Control
import TreeCompiler.Proofs.Selection.Sequences
import TreeCompiler.Proofs.Selection.Passing
import TreeCompiler.Proofs.Selection.Pieces
import TreeCompiler.Proofs.Selection.Branches
import TreeCompiler.Proofs.Selection.Conditions
import TreeCompiler.Proofs.Selection.Arguments
import TreeCompiler.Proofs.Executions
import TreeCompiler.Proofs.Progress
import TreeCompiler.Proofs.SwappedTemps
import TreeCompiler.Proofs.Meaning
import TreeCompiler.Proofs.IntroducedTemps
import TreeCompiler.Proofs.Namers
import TreeCompiler.Proofs.CalleeSaves
import TreeCompiler.Proofs.Procedures
import TreeCompiler.Proofs.StackPointer
import TreeCompiler.Proofs.FrameAreas
import TreeCompiler.Proofs.Selection.Operands
import TreeCompiler.Proofs.Selection.Waiting
import TreeCompiler.Proofs.Selection.Survival
import TreeCompiler.Proofs.Selection.Marks
import TreeCompiler.Proofs.Selection.Room
import TreeCompiler.Proofs.Selection.Labels
import TreeCompiler.Proofs.Trees
import TreeCompiler.Proofs.Grammar.Basic
import TreeCompiler.Proofs.Grammar.Leftmost
import TreeCompiler.Proofs.Grammar.Faults
import TreeCompiler.Proofs.Grammar.Reading
import TreeCompiler.Proofs.Grammar.Parser
import TreeCompiler.Proofs.Grammar.Acceptance
import TreeCompiler.Proofs.Grammar.Words
import TreeCompiler.Proofs.Grammar.RoundTrip
import TreeCompiler.Proofs.Templates
import TreeCompiler.Proofs.Selection.Jumps
import TreeCompiler.Proofs.FreshTemps
import TreeCompiler.Proofs.AllocatedCode
import TreeCompiler.Proofs.AssemblyText
import TreeCompiler.Proofs.Symbols
import TreeCompiler.Proofs.Encoding
import TreeCompiler.Proofs.Renumbering.Basic
import TreeCompiler.Proofs.Renumbering.Selection
import TreeCompiler.Proofs.Renumbering.Analysis
import TreeCompiler.Proofs.Renumbering.Rounds
import TreeCompiler.Proofs.Independence
import TreeCompiler.Proofs.Grammar.Lexing
import TreeCompiler.Proofs.Selection.Destinations
import TreeCompiler.Proofs.Coloring.Termination
import TreeCompiler.Proofs.Coloring.Moves
import TreeCompiler.Proofs.Coloring.LowestColor
import TreeCompiler.Proofs.Specifications
