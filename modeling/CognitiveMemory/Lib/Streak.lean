import Mathlib.Data.List.Basic

/-! Rounds that hit or miss, and how many of them have hit in a row since a count last began anew. -/

namespace Streak

inductive Mark
  | anew
  | round (hit : Bool)
  | other
  deriving DecidableEq

def Mark.hit? : Mark → Option Bool
  | .round hit => some hit
  | _ => none

def rounds (marks : List Mark) : List Bool := (marks.takeWhile (· != .anew)).filterMap Mark.hit?

/-- How many rounds have hit in a row, up to the latest. -/
def streak (marks : List Mark) : ℕ := ((rounds marks).takeWhile id).length

variable {marks : List Mark}

@[simp] theorem streak_anew : streak (.anew :: marks) = 0 := rfl

@[simp] theorem streak_hit : streak (.round true :: marks) = streak marks + 1 := rfl

@[simp] theorem streak_miss : streak (.round false :: marks) = 0 := rfl

@[simp] theorem streak_other : streak (.other :: marks) = streak marks := rfl

end Streak
