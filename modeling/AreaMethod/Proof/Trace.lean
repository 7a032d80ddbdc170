import AreaMethod.Verdict
import Std.Data.ExtTreeMap

/-!
# Traces

A trace lists the passes that a proof has made, with the size of the expression after each of them,
and says how the proof ended.
-/

namespace AreaMethod

/-- One pass over one expression of a statement. -/
structure TraceStep where
  /-- The number of the step. -/
  id : UInt32
  /-- What was done. -/
  pass : String
  /-- The index of the expression in the statement. -/
  expressionIndex : UInt64
  /-- The size of the expression after the pass. -/
  size : UInt64
  /-- The expression after the pass, unless it is too large. -/
  expression : Option String
  /-- A remark for readers. -/
  explanation : Option String
deriving DecidableEq

/-- The number of a step as text. -/
def stepTag (id : UInt32) : String :=
  "Step" ++ Nat.repr id.toNat

/-- What a proof has done, in order. -/
structure Trace where
  steps : List TraceStep
  /-- The outcome, once there is one. -/
  verdict : Option Verdict
  /-- Named remarks on the proof as a whole. -/
  metadata : Std.ExtTreeMap String String

/-- How often a name has been counted. -/
abbrev Tally := Std.ExtTreeMap String Nat

/-- Figures on a trace. -/
structure Statistics where
  stepCount : Nat
  /-- The largest size of an expression after any step. -/
  maxSize : Nat
  verdict : Option Verdict
  /-- How often each pass was made. -/
  passes : Tally

namespace Trace

/-- Nothing done yet. -/
def empty : Trace := ⟨[], none, ∅⟩

/-- The number that the next step gets. -/
def nextId (t : Trace) : UInt32 :=
  t.steps.length.toUInt32

/-- Adds a step. -/
def addStep (t : Trace) (s : TraceStep) : Trace :=
  { t with steps := t.steps ++ [s] }

/-- Adds a step that gets the next number. -/
def record (t : Trace) (pass : String) (expressionIndex size : Nat)
    (expression explanation : Option String) : Trace :=
  t.addStep ⟨t.nextId, pass, expressionIndex.toUInt64, size.toUInt64, expression, explanation⟩

/-- Sets the outcome. -/
def decide (t : Trace) (verdict : Verdict) : Trace :=
  { t with verdict := some verdict }

/-- Sets a named remark. -/
def remark (t : Trace) (key value : String) : Trace :=
  { t with metadata := t.metadata.insert key value }

/-- The remark of that name. -/
def remark? (t : Trace) (key : String) : Option String :=
  t.metadata[key]?

/-- The steps for one expression of the statement. -/
def stepsFor (t : Trace) (expressionIndex : Nat) : List TraceStep :=
  t.steps.filter fun s => s.expressionIndex.toNat == expressionIndex

/-- Counts a name once more. -/
def tick (tally : Tally) (name : String) : Tally :=
  tally.insert name (tally[name]?.getD 0 + 1)

/-- The figures on a trace. -/
def statistics (t : Trace) : Statistics where
  stepCount := t.steps.length
  maxSize := t.steps.foldl (fun n s => max n s.size.toNat) 0
  verdict := t.verdict
  passes := t.steps.foldl (fun tally s => tick tally s.pass) ∅

end Trace

namespace Statistics

/-- How often the most frequent passes were made. -/
def highestCount (s : Statistics) : Nat :=
  s.passes.toList.foldl (fun n entry => max n entry.2) 0

/-- The passes that were made most often. -/
def mostUsed (s : Statistics) : List String :=
  (s.passes.toList.filter fun entry => entry.2 == s.highestCount).map (·.1)

end Statistics

end AreaMethod
