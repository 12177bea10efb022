import WikiTidy.Text.Basic

/-!
# Branch labels and hints

A branch label answers a question: yes and true are positive, no and false negative. Which exit of
a decision the answer belongs to shows in the words of the node that the exit leads to; `score`
counts the hints for an answer less the hints against it.
-/

namespace WikiTidy.Diagram

open Text

/-- The answer that a branch stands for. -/
inductive Polarity where
  | positive
  | negative
deriving DecidableEq, Repr

/-- The labels of positive branches. -/
def positiveLabels : List Text := ["yes", "true"].map String.toList

/-- The labels of negative branches. -/
def negativeLabels : List Text := ["no", "false"].map String.toList

/-- All labels of branches. -/
def branchLabels : List Text := ["yes", "no", "true", "false"].map String.toList

/-- The label is the answer of a branch, whatever its case and the blanks around it. -/
def isBranchLabel : Option Text → Bool
  | none => false
  | some label => branchLabels.contains (lower (trim label))

/-- The answer that a label gives. -/
def polarity? (label : Text) : Option Polarity :=
  let word := lower (trim label)
  if positiveLabels.contains word then some .positive
  else if negativeLabels.contains word then some .negative
  else none

/-- The labels that give an answer are the branch labels. -/
theorem isSome_polarity? (label : Text) :
    (polarity? label).isSome = isBranchLabel (some label) := by
  simp only [polarity?, isBranchLabel, positiveLabels, negativeLabels, branchLabels, List.map_cons,
    List.map_nil, List.contains_eq_mem, List.mem_cons, List.not_mem_nil, or_false]
  grind

/-- Words that speak for a positive answer. -/
def positiveHints : List Text :=
  ["add", "use", "enable", "create", "remove", "success", "ready", "connected", "established",
    "proceed", "continue"].map String.toList

/-- Words that speak for a negative answer. -/
def negativeHints : List Text :=
  ["fail", "error", "invalid", "reject", "timeout", "blocked", "missing", "not", "false", "empty",
    "return", "skip", "default"].map String.toList

/-- The number of hints that occur in a text; each counts once. -/
def countHints (hints : List Text) (text : Text) : Int :=
  hints.countP fun hint => contains hint text

/-- How well a text fits an answer. -/
def score (text : Text) : Polarity → Int
  | .positive => countHints positiveHints (lower text) - countHints negativeHints (lower text)
  | .negative => countHints negativeHints (lower text) - countHints positiveHints (lower text)

/-- What speaks for one answer speaks against the other. -/
theorem score_negative (text : Text) : score text .negative = -score text .positive := by
  simp only [score]; omega

end WikiTidy.Diagram
