import Lookahead.FieldTree.Union
import Lookahead.FieldTree.Absorb
import Lookahead.FieldTree.Branch

/-!
# FieldTree.Registers — trees under names, worked on step by step

A register that was never set holds the empty tree. The registers set so far stand in the order
of their names.
-/

namespace Lookahead
namespace FieldTree

abbrev Registers := List (String × FieldTree)

namespace Registers

def read (name : String) : Registers → FieldTree
  | [] => nil
  | (n, tree) :: registers => if n = name then tree else read name registers

def write (name : String) (tree : FieldTree) : Registers → Registers
  | [] => [(name, tree)]
  | (n, old) :: registers =>
      if n = name then (n, tree) :: registers
      else if name < n then (name, tree) :: (n, old) :: registers
      else (n, old) :: write name tree registers

theorem read_write (name other : String) (tree : FieldTree) (registers : Registers) :
    read other (write name tree registers) =
      if other = name then tree else read other registers := by
  induction registers with
  | nil =>
      by_cases h : other = name
      · simp [write, read, h]
      · have hn : name ≠ other := fun e => h e.symm
        simp [write, read, h, hn]
  | cons register registers ih =>
      obtain ⟨n, old⟩ := register
      by_cases hn : n = name
      · subst hn
        by_cases h : other = n
        · simp [write, read, h]
        · have hne : n ≠ other := fun e => h e.symm
          simp [write, read, h, hne]
      · by_cases hlt : name < n
        · by_cases h : other = name
          · simp [write, read, hn, hlt, h]
          · have hne : name ≠ other := fun e => h e.symm
            simp [write, read, hn, hlt, h, hne]
        · by_cases h : n = other
          · subst h
            simp [write, read, hn, hlt]
          · simp [write, read, hn, hlt, h, ih]

end Registers

/-- A step names the registers it reads and the one it writes. -/
inductive Step
  | set (target : String) (tree : FieldTree)
  | union (target left right : String)
  | absorb (target source : String)
  | branch (target source path : String)

namespace Step

def target : Step → String
  | set target _ => target
  | union target _ _ => target
  | absorb target _ => target
  | branch target _ _ => target

/-- The tree that a step writes. -/
def result (registers : Registers) : Step → FieldTree
  | set _ tree => tree
  | union _ left right => (registers.read left).union (registers.read right)
  | absorb target source => (registers.read target).absorb (registers.read source)
  | branch _ source path => (registers.read source).subtree path

def apply (registers : Registers) (step : Step) : Registers :=
  registers.write step.target (step.result registers)

/-- The registers after each step. -/
def history (registers : Registers) : List Step → List Registers
  | [] => []
  | step :: steps =>
      let next := step.apply registers
      next :: history next steps

end Step

end FieldTree
end Lookahead
