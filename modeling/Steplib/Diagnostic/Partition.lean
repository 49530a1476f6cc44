import Steplib.Diagnostic.Basic

/-!
# Diagnostics by tool

The diagnostics of a file are kept apart by the tool that produced them, so that a tool replaces
its own findings and nobody else's.
-/

namespace Steplib

/-- The diagnostics of one file, one list per tool. -/
structure Partition where
  parser : List Diagnostic := []
  linter : List Diagnostic := []
  testRunner : List Diagnostic := []
  catalog : List Diagnostic := []
deriving DecidableEq, Repr

namespace Partition

/-- No diagnostics at all. -/
def empty : Partition := {}

instance : Inhabited Partition := ⟨empty⟩

/-- The list of one tool. -/
def ofTool (p : Partition) : Tool → List Diagnostic
  | .parser => p.parser
  | .linter => p.linter
  | .testRunner => p.testRunner
  | .catalog => p.catalog

/-- The partition with one tool's list replaced. -/
def replace (p : Partition) (tool : Tool) (ds : List Diagnostic) : Partition :=
  match tool with
  | .parser => { p with parser := ds }
  | .linter => { p with linter := ds }
  | .testRunner => { p with testRunner := ds }
  | .catalog => { p with catalog := ds }

/-- The partition with one more diagnostic at the end of a tool's list. -/
def add (p : Partition) (tool : Tool) (d : Diagnostic) : Partition :=
  p.replace tool (p.ofTool tool ++ [d])

/-- The partition without the diagnostics of a tool. -/
def clear (p : Partition) (tool : Tool) : Partition :=
  p.replace tool []

/-- The diagnostics of all tools, in tool order. -/
def all (p : Partition) : List Diagnostic :=
  Tool.all.flatMap p.ofTool

/-- No tool has a diagnostic. -/
def isEmpty (p : Partition) : Bool :=
  p.all.isEmpty

@[simp]
theorem ofTool_empty (tool : Tool) : empty.ofTool tool = [] := by
  cases tool <;> rfl

/-- Replacing a tool's list leaves the lists of the other tools alone. -/
theorem ofTool_replace (p : Partition) (tool other : Tool) (ds : List Diagnostic) :
    (p.replace tool ds).ofTool other = if other = tool then ds else p.ofTool other := by
  cases tool <;> cases other <;> rfl

theorem ofTool_add (p : Partition) (tool other : Tool) (d : Diagnostic) :
    (p.add tool d).ofTool other =
      if other = tool then p.ofTool tool ++ [d] else p.ofTool other :=
  ofTool_replace p tool other _

theorem ofTool_clear (p : Partition) (tool other : Tool) :
    (p.clear tool).ofTool other = if other = tool then [] else p.ofTool other :=
  ofTool_replace p tool other []

end Partition

end Steplib
