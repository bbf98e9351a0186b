import Mathlib.Data.Nat.Init
import Mathlib.Data.Nat.Cast.Defs

/-! The numerals of the model's constants: each has an instance of its own, and is one term wherever it is written. -/

instance Nat.atLeastTwo_two : Nat.AtLeastTwo 2 := ⟨by decide⟩
instance Nat.atLeastTwo_three : Nat.AtLeastTwo 3 := ⟨by decide⟩
instance Nat.atLeastTwo_four : Nat.AtLeastTwo 4 := ⟨by decide⟩
instance Nat.atLeastTwo_five : Nat.AtLeastTwo 5 := ⟨by decide⟩
instance Nat.atLeastTwo_six : Nat.AtLeastTwo 6 := ⟨by decide⟩
instance Nat.atLeastTwo_seven : Nat.AtLeastTwo 7 := ⟨by decide⟩
instance Nat.atLeastTwo_ten : Nat.AtLeastTwo 10 := ⟨by decide⟩
instance Nat.atLeastTwo_twenty : Nat.AtLeastTwo 20 := ⟨by decide⟩
instance Nat.atLeastTwo_fortyFive : Nat.AtLeastTwo 45 := ⟨by decide⟩
instance Nat.atLeastTwo_seventyFive : Nat.AtLeastTwo 75 := ⟨by decide⟩
instance Nat.atLeastTwo_eightyFive : Nat.AtLeastTwo 85 := ⟨by decide⟩
instance Nat.atLeastTwo_hundred : Nat.AtLeastTwo 100 := ⟨by decide⟩
