import CodeAtlas.Text.Quoted

/-!
# Failures

The analysis itself never fails. Failures arise where trees and settings are loaded and where a
command is carried out. A failure names the activity that failed, gives a cause, which may be another
failure, and may carry named details.
-/

namespace CodeAtlas

mutual

inductive Failure where
  | mk (activity : String) (cause : Failure.Cause) (details : Option (List (String × String)))

/-- Why an activity failed. -/
inductive Failure.Cause where
  | unknown
  | message (text : String)
  | failure (inner : Failure)

end

namespace Failure

/-- What failed. It may be left empty. -/
def activity : Failure → String
  | ⟨activity, _, _⟩ => activity

def cause : Failure → Cause
  | ⟨_, cause, _⟩ => cause

def details : Failure → List (String × String)
  | ⟨_, _, details⟩ => details.getD []

/-! ## What a user is told -/

/-- The failure in one line: the activity, the innermost cause, and the details of each failure on
the way. -/
def describe : Failure → String
  | ⟨activity, cause, details⟩ =>
      (if activity.isEmpty then "" else activity ++ ": ") ++
        (match cause with
          | .unknown => "error"
          | .message text => text
          | .failure inner => describe inner) ++
        (match details with
          | none | some [] => ""
          | some (d :: ds) => " with " ++ Text.quotedPairs (d :: ds))

mutual

def dump : Failure → String
  | ⟨activity, cause, details⟩ =>
      "Error \x7b err: ErrorImpl \x7b loc: " ++ Text.quoted activity ++ ", kind: " ++ cause.dump ++
        ", args: " ++
        (match details with
          | none => "None"
          | some ds => "Some(" ++ Text.quotedPairs ds ++ ")") ++
        " \x7d \x7d"

def Cause.dump : Cause → String
  | .unknown => "None"
  | .message text => "Msg(" ++ Text.quoted text ++ ")"
  | .failure inner => "Inner(" ++ dump inner ++ ")"

end

/-! ## Failing with a reason -/

class IsCause (α : Type) where
  toCause : α → Cause

instance : IsCause Cause :=
  ⟨id⟩

instance : IsCause String :=
  ⟨Cause.message⟩

instance : IsCause Failure :=
  ⟨Cause.failure⟩

/-- A failure of an activity for a reason, with details unless they are `none`. -/
def because {ε : Type} [IsCause ε] (activity : String) (details : Option (List (String × String)))
    (reason : ε) : Failure :=
  ⟨activity, IsCause.toCause reason, details⟩

abbrev Outcome (α : Type) := Except Failure α

def during {ε α : Type} [IsCause ε] (activity : String) (details : Option (List (String × String)))
    (result : Except ε α) : Outcome α :=
  result.mapError (because activity details)

/-- Names the activity that needed a value which is absent. -/
def needing {α : Type} (activity : String) (details : Option (List (String × String)))
    (value : Option α) : Outcome α :=
  match value with
  | some x => .ok x
  | none => .error ⟨activity, .unknown, details⟩

end Failure

end CodeAtlas
