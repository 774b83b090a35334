import Lox.Diagnostic

/-!
# Reports

What went wrong, as a tree: single problems, lists of problems, and messages put in front of either.

## Design notes

A message in front of a list belongs to the list, so it disappears when the list is taken apart. A
message in front of a single problem stays with it.
-/

namespace Lox

/-- What went wrong. -/
inductive Report where
  | diagnostic (d : Diagnostic)
  | plain (t : Text)
  | many (reports : List Report)
  | wrapped (message : Text) (inner : Report)

namespace Report

/-- What a report adds to a list that it becomes part of. -/
def spliced : Option Report → List Report
  | none => []
  | some (many reports) => reports
  | some r => [r]

/-- One report out of several that may be empty; nothing if there are none to begin with. -/
def ofList : List (Option Report) → Option Report
  | [] => none
  | reports => some (many (reports.flatMap spliced))

/-- The report of several diagnostics. -/
def ofDiagnostics : List Diagnostic → Option Report
  | [] => none
  | ds => some (many (ds.map diagnostic))

/-- A report with a message in front; an empty report cannot be wrapped and leaves a plain text. -/
def wrap (message : Text) : Option Report → Report
  | some r => wrapped message r
  | none => plain (message ++ ": %!w(<nil>)")

mutual

/-- The report in words: the entries of a list each on a line. -/
def text : Report → Text
  | diagnostic d => d.text
  | plain t => t
  | many reports => Text.joinWith "\n" (texts reports)
  | wrapped message inner => message ++ ": " ++ inner.text

/-- Several reports in words. -/
def texts : List Report → List Text
  | [] => []
  | r :: rest => r.text :: texts rest

end

/-- Whether there is a list behind the messages in front. -/
def isMany : Report → Bool
  | many _ => true
  | wrapped _ inner => inner.isMany
  | _ => false

mutual

/-- The single problems of a report, in order. -/
def flatten : Report → List Report
  | diagnostic d => [diagnostic d]
  | plain t => [plain t]
  | many reports => flattenAll reports
  | wrapped message inner => if inner.isMany then inner.flatten else [wrapped message inner]

/-- The single problems of several reports, in order. -/
def flattenAll : List Report → List Report
  | [] => []
  | r :: rest => r.flatten ++ flattenAll rest

end

/-- The diagnostic behind the messages in front. -/
def diagnostic? : Report → Option Diagnostic
  | diagnostic d => some d
  | wrapped _ inner => inner.diagnostic?
  | _ => none

/-- The diagnostics of a report, in order. -/
def diagnostics (r : Report) : List Diagnostic := r.flatten.filterMap diagnostic?

end Report

end Lox
