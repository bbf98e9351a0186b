import Mathlib.Logic.Relation
import Mathlib.Data.List.Basic

/-! Systems with labelled steps, their runs, and refinement under an abstraction function: what one
concrete step is allowed to be above, a whole run is. -/

abbrev Steps (L S : Type) := L → S → S → Prop

namespace Steps
variable {L S T : Type}

inductive Run (M : Steps L S) : S → List L → S → Prop
  | nil (s : S) : Run M s [] s
  | cons {l : L} {ls : List L} {s s' s'' : S} (h : M l s s') (hrest : Run M s' ls s'') : Run M s (l :: ls) s''

variable {M : Steps L S}

theorem Run.append {a b c : S} {ls ls' : List L} (h : M.Run a ls b) (h' : M.Run b ls' c) : M.Run a (ls ++ ls') c := by
  induction h with
  | nil => exact h'
  | cons hstep _ ih => exact .cons hstep (ih h')

/-- `M` under the invariant `inv` does, seen through `abs`, what `A` allows. -/
structure Refines (M : Steps L S) (A : Steps L T) (inv : S → Prop) (abs : S → T) : Prop where
  keeps : ∀ l s s', inv s → M l s s' → inv s'
  step : ∀ l s s', inv s → M l s s' → A l (abs s) (abs s')

theorem Refines.run {A : Steps L T} {inv : S → Prop} {abs : S → T} (h : M.Refines A inv abs) {s s' : S} {ls : List L}
    (hs : inv s) (hrun : M.Run s ls s') : A.Run (abs s) ls (abs s') := by
  induction hrun with
  | nil => exact .nil _
  | cons hstep _ ih => exact .cons (h.step _ _ _ hs hstep) (ih (h.keeps _ _ _ hs hstep))

end Steps
