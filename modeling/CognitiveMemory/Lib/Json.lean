import CognitiveMemory.Lib.Numerals
import Mathlib.Algebra.Order.Ring.Int
import Mathlib.Data.List.MinMax
import Mathlib.Order.Nat

/-! JSON documents and the typed codecs over them. A codec carries the proof that it reads back
what it writes, so that a type's codec is built from those of its fields and needs only that no two
names clash. -/

structure Decimal where
  mantissa : ℤ
  places : ℕ
  normal : places = 1 ∨ 1 < places ∧ ¬ 10 ∣ mantissa
  deriving DecidableEq

def Decimal.ofInt (n : ℤ) : Decimal := ⟨n * 10, 1, .inl rfl⟩

/-- An object keeps its members in order, and a name may come twice. -/
inductive Json
  | null
  | bool (b : Bool)
  | int (n : ℤ)
  | float (d : Decimal)
  | str (s : String)
  | arr (xs : List Json)
  | obj (members : List (String × Json))

namespace Json

/-- Integers are of 64 bits, and arrays and objects nest at most `n` deep. -/
def Within : ℕ → Json → Prop
  | _, .int k => -2 ^ 63 ≤ k ∧ k < 2 ^ 64
  | n + 1, .arr xs => ∀ x ∈ xs, x.Within n
  | n + 1, .obj members => ∀ m ∈ members, m.2.Within n
  | 0, .arr _ | 0, .obj _ => False
  | _, .null | _, .bool _ | _, .float _ | _, .str _ => True

theorem Within.mono {n m : ℕ} (h : n ≤ m) {j : Json} (hj : j.Within n) : j.Within m := by
  induction n generalizing m j with
  | zero => cases m <;> cases j <;> simp_all [Within]
  | succ n ih =>
    obtain ⟨m, rfl⟩ : ∃ k, m = k + 1 := ⟨m - 1, by omega⟩
    cases j with
    | arr xs => exact fun x hx => ih (by omega) (hj x hx)
    | obj members => exact fun x hx => ih (by omega) (hj x hx)
    | _ => exact hj

/-! ## Values -/

structure Codec (α : Type) where
  ser : α → Json
  de : Json → Option α
  depth : ℕ
  within : ∀ a, (ser a).Within depth
  nonnull : ∀ a, ser a ≠ .null
  de_ser : ∀ a, de (ser a) = some a

namespace Codec
variable {α β : Type}

theorem within_of_le (c : Codec α) (a : α) {n : ℕ} (h : c.depth ≤ n) : (c.ser a).Within n := (c.within a).mono h

def string : Codec String where
  ser := .str
  de
    | .str s => some s
    | _ => none
  depth := 0
  within _ := trivial
  nonnull := nofun
  de_ser _ := rfl

def boolean : Codec Bool where
  ser := .bool
  de
    | .bool b => some b
    | _ => none
  depth := 0
  within _ := trivial
  nonnull := nofun
  de_ser _ := rfl

def decimal : Codec Decimal where
  ser := .float
  de
    | .float d => some d
    | .int n => some (.ofInt n)
    | _ => none
  depth := 0
  within _ := trivial
  nonnull := nofun
  de_ser _ := rfl

/-- A fixed-width integer with the values from `lo` up to `hi`. -/
def integer (toInt : α → ℤ) (ofInt : ℤ → α) (lo hi : ℤ) (hlo : -2 ^ 63 ≤ lo) (hhi : hi ≤ 2 ^ 64)
    (hrange : ∀ a, lo ≤ toInt a ∧ toInt a < hi) (hround : ∀ a, ofInt (toInt a) = a) : Codec α where
  ser a := .int (toInt a)
  de
    | .int n => if lo ≤ n ∧ n < hi then some (ofInt n) else none
    | _ => none
  depth := 0
  within a := ⟨hlo.trans (hrange a).1, lt_of_lt_of_le (hrange a).2 hhi⟩
  nonnull := nofun
  de_ser a := by
    show (if lo ≤ toInt a ∧ toInt a < hi then some (ofInt (toInt a)) else none) = some a
    rw [if_pos (hrange a), hround]

def u64 : Codec UInt64 :=
  integer (fun n => n.toNat) (fun n => .ofNat n.toNat) 0 (2 ^ 64) (by decide) (by decide)
    (fun n => ⟨by omega, by have := n.toNat_lt; omega⟩) (fun n => by simp)

theorem u64_ser (n : UInt64) : u64.ser n = .int n.toNat := rfl

def u32 : Codec UInt32 :=
  integer (fun n => n.toNat) (fun n => .ofNat n.toNat) 0 (2 ^ 32) (by decide) (by decide)
    (fun n => ⟨by omega, by have := n.toNat_lt; omega⟩) (fun n => by simp)

def i64 : Codec Int64 :=
  integer Int64.toInt .ofInt (-2 ^ 63) (2 ^ 63) (by decide) (by decide)
    (fun n => ⟨n.le_toInt, n.toInt_lt⟩) (fun n => n.ofInt_toInt)

def i32 : Codec Int32 :=
  integer Int32.toInt .ofInt (-2 ^ 31) (2 ^ 31) (by decide) (by decide)
    (fun n => ⟨n.le_toInt, n.toInt_lt⟩) (fun n => n.ofInt_toInt)

def enumeration (name : α → String) (ofName : String → Option α) (h : ∀ a, ofName (name a) = some a) : Codec α where
  ser a := .str (name a)
  de
    | .str s => ofName s
    | _ => none
  depth := 0
  within _ := trivial
  nonnull := nofun
  de_ser := h

theorem mapM_map (c : Codec α) (as : List α) : (as.map c.ser).mapM c.de = some as := by
  induction as with
  | nil => rfl
  | cons a as ih => simp [c.de_ser, ih]

def list (c : Codec α) : Codec (List α) where
  ser as := .arr (as.map c.ser)
  de
    | .arr xs => xs.mapM c.de
    | _ => none
  depth := c.depth + 1
  within as x hx := by
    obtain ⟨a, -, rfl⟩ := List.mem_map.mp hx
    exact c.within a
  nonnull := nofun
  de_ser := c.mapM_map

end Codec

/-! ## Records -/

abbrev Members := List (String × Json)

def Members.values (o : Members) (name : String) : List Json := (o.filter fun m => m.1 = name).map Prod.snd

structure Field (α : Type) where
  write : α → Option Json
  read : Option Json → Option α
  depth : ℕ
  within : ∀ a, ∀ j ∈ write a, j.Within depth
  read_write : ∀ a, read (write a) = some a

namespace Field
variable {α : Type}

def required (c : Codec α) : Field α where
  write a := some (c.ser a)
  read j := j.bind c.de
  depth := c.depth
  within a j hj := by
    cases hj
    exact c.within a
  read_write := c.de_ser

theorem read_required (c : Codec α) (a : α) : (required c).read (some (c.ser a)) = some a := c.de_ser a

def defaulted (c : Codec α) (default : α) : Field α where
  write a := some (c.ser a)
  read j := j.elim (some default) c.de
  depth := c.depth
  within := (required c).within
  read_write := c.de_ser

/-- An `Option` that is written as null. -/
def nullable (c : Codec α) : Field (Option α) where
  write a := some (a.elim .null c.ser)
  read
    | none | some .null => some none
    | some j => (c.de j).map some
  depth := c.depth
  within a j hj := by
    cases hj
    cases a with
    | none => cases c.depth <;> trivial
    | some a => exact c.within a
  read_write a := by
    cases a with
    | none => rfl
    | some a =>
      split
      · next h => cases h
      · next h => exact absurd (Option.some.inj h) (c.nonnull a)
      · next h =>
        cases h
        simp [c.de_ser]

/-- An `Option` that is left out when there is none. -/
def skipped (c : Codec α) : Field (Option α) where
  write a := a.map c.ser
  read := (nullable c).read
  depth := c.depth
  within a j hj := by
    obtain ⟨b, -, rfl⟩ := Option.mem_map.mp hj
    exact c.within b
  read_write a := by
    cases a with
    | none => rfl
    | some a => exact (nullable c).read_write (some a)

end Field

structure Fields (γ α : Type) where
  ser : γ → Members
  de : Members → Option α
  get : γ → α
  names : List String
  depth : ℕ
  within : ∀ c, ∀ m ∈ ser c, m.2.Within depth
  named : ∀ c, ∀ m ∈ ser c, m.1 ∈ names
  /-- Other members do not matter. -/
  de_ser : names.Nodup → ∀ c (o : Members), (∀ n ∈ names, o.values n = Members.values (ser c) n) → de o = some (get c)

theorem Members.values_append (o o' : Members) (n : String) : Members.values (o ++ o') n = o.values n ++ o'.values n := by
  simp [values]

theorem Members.values_eq_nil {o : Members} {n : String} (h : ∀ m ∈ o, m.1 ≠ n) : o.values n = [] := by
  simp only [values, List.map_eq_nil_iff, List.filter_eq_nil_iff, decide_eq_true_eq]
  exact h

namespace Fields
variable {α β γ : Type}

def build (a : α) : Fields γ α where
  ser _ := []
  de _ := some a
  get _ := a
  names := []
  depth := 0
  within _ _ := nofun
  named _ _ := nofun
  de_ser _ _ _ _ := rfl

def member (name : String) (j : Option Json) : Members := j.toList.map fun j => (name, j)

theorem values_member (name : String) (j : Option Json) : Members.values (member name j) name = j.toList := by
  cases j <;> simp [member, Members.values]

def readField (name : String) (f : Field α) (o : Members) : Option α :=
  match o.values name with
  | [] => f.read none
  | [j] => f.read (some j)
  | _ => none

theorem readField_write {name : String} {f : Field α} {a : α} {o : Members} (h : o.values name = (f.write a).toList) :
    readField name f o = some a := by
  rw [readField, h, ← f.read_write a]
  cases f.write a <;> rfl

def field (fs : Fields γ (α → β)) (name : String) (f : Field α) (get : γ → α) : Fields γ β where
  ser c := fs.ser c ++ member name (f.write (get c))
  de o := do return (← fs.de o) (← readField name f o)
  get c := fs.get c (get c)
  names := fs.names ++ [name]
  depth := max fs.depth f.depth
  within c m hm := by
    obtain hm | hm := List.mem_append.mp hm
    · exact (fs.within c m hm).mono (le_max_left ..)
    · obtain ⟨j, hj, rfl⟩ := List.mem_map.mp hm
      exact (f.within _ j (Option.mem_toList.mp hj)).mono (le_max_right ..)
  named c m hm := by
    obtain hm | hm := List.mem_append.mp hm
    · exact List.mem_append_left _ (fs.named c m hm)
    · obtain ⟨j, -, rfl⟩ := List.mem_map.mp hm
      exact List.mem_append_right _ (List.mem_singleton_self name)
  de_ser hnodup c o ho := by
    obtain ⟨hfs, -, hdisjoint⟩ := List.nodup_append.mp hnodup
    have hname : ∀ n ∈ fs.names, n ≠ name := fun n hn => hdisjoint n hn name (List.mem_singleton_self name)
    have hbefore : fs.de o = some (fs.get c) := by
      refine fs.de_ser hfs c o fun n hn => ?_
      rw [ho n (List.mem_append_left _ hn), Members.values_append]
      have hother : Members.values (member name (f.write (get c))) n = [] := by
        refine Members.values_eq_nil fun m hm => ?_
        obtain ⟨j, -, rfl⟩ := List.mem_map.mp hm
        exact (hname n hn).symm
      rw [hother, List.append_nil]
    have hhere : readField name f o = some (get c) := by
      apply readField_write
      rw [ho name (List.mem_append_right _ (List.mem_singleton_self name)), Members.values_append, values_member,
        Members.values_eq_nil fun m hm => hname m.1 (fs.named c m hm), List.nil_append]
    simp [hbefore, hhere]

@[simp] theorem de_build (a : α) (o : Members) : (build a : Fields γ α).de o = some a := rfl

theorem de_field (fs : Fields γ (α → β)) (name : String) (f : Field α) (get : γ → α) (o : Members) :
    (fs.field name f get).de o = (fs.de o).bind fun g => (readField name f o).map g := by
  show ((fs.de o).bind fun g => (readField name f o).bind fun a => some (g a)) = _
  simp only [Option.map_eq_bind]
  rfl

theorem readField_one {name : String} {f : Field α} {o : Members} {j : Json} (h : o.values name = [j]) :
    readField name f o = f.read (some j) := by
  rw [readField, h]

end Fields

/-! ## Objects and tagged enumerations -/

structure Object (α : Type) where
  ser : α → Members
  de : Members → Option α
  names : List String
  depth : ℕ
  within : ∀ a, ∀ m ∈ ser a, m.2.Within depth
  named : ∀ a, ∀ m ∈ ser a, m.1 ∈ names
  de_ser : ∀ a, de (ser a) = some a

structure Variant (α : Type) where
  name : String
  {Holds : Type}
  object : Object Holds
  inject : Holds → α

namespace Object
variable {α β : Type}

def record (fs : Fields α α) (hget : ∀ a, fs.get a = a) (hnames : fs.names.Nodup) : Object α where
  ser := fs.ser
  de := fs.de
  names := fs.names
  depth := fs.depth
  within := fs.within
  named := fs.named
  de_ser a := by rw [fs.de_ser hnames a _ fun _ _ => rfl, hget]

def codec (o : Object α) : Codec α where
  ser a := .obj (o.ser a)
  de
    | .obj members => o.de members
    | _ => none
  depth := o.depth + 1
  within := o.within
  nonnull := nofun
  de_ser := o.de_ser

def unit : Object Unit where
  ser _ := []
  de _ := some ()
  names := []
  depth := 0
  within _ _ := nofun
  named _ _ := nofun
  de_ser _ := rfl

/-- The tag, and the other members. -/
def untag (tag : String) (o : Members) : Option (String × Members) :=
  match o.values tag with
  | [.str name] => some (name, o.filter fun m => m.1 ≠ tag)
  | _ => none

theorem untag_cons {tag : String} (name : String) {o : Members} (h : ∀ m ∈ o, m.1 ≠ tag) :
    untag tag ((tag, .str name) :: o) = some (name, o) := by
  have hvalues : Members.values ((tag, .str name) :: o) tag = [.str name] := by
    have hnone := Members.values_eq_nil h
    simp only [Members.values, List.map_eq_nil_iff] at hnone
    simp [Members.values, hnone]
  rw [untag, hvalues]
  simpa using h

/-- The variant of the name, or else what stands for every other name. -/
def readVariant {n : ℕ} (vs : Fin n → Variant α) (other : Option α) (name : String) (o : Members) : Option α :=
  match (List.finRange n).find? fun i => (vs i).name = name with
  | some i => ((vs i).object.de o).map (vs i).inject
  | none => other

theorem readVariant_other {n : ℕ} {vs : Fin n → Variant α} {other : Option α} {name : String} {o : Members}
    (h : ∀ i, (vs i).name ≠ name) : readVariant vs other name o = other := by
  have hnone : ((List.finRange n).find? fun i => (vs i).name = name) = none := by
    simpa using h
  rw [readVariant, hnone]

theorem readVariant_name {n : ℕ} {vs : Fin n → Variant α} {other : Option α} {o : Members}
    (h : Function.Injective fun i => (vs i).name) (i : Fin n) :
    readVariant vs other (vs i).name o = ((vs i).object.de o).map (vs i).inject := by
  have hfind : ((List.finRange n).find? fun j => (vs j).name = (vs i).name) = some i := by
    cases hj : (List.finRange n).find? fun j => (vs j).name = (vs i).name with
    | none => exact absurd (List.find?_eq_none.mp hj i (List.mem_finRange i)) (by simp)
    | some j =>
      have hname : (vs j).name = (vs i).name := by simpa using List.find?_some hj
      rw [h hname]
  rw [readVariant, hfind]

def tagged (tag : String) {n : ℕ} (vs : Fin n → Variant α) (other : Option α) (pick : α → (i : Fin n) × (vs i).Holds)
    (hpick : ∀ a, (vs (pick a).1).inject (pick a).2 = a) (hnames : Function.Injective fun i => (vs i).name)
    (hfresh : ∀ i, tag ∉ (vs i).object.names) : Object α where
  ser a := (tag, .str (vs (pick a).1).name) :: (vs (pick a).1).object.ser (pick a).2
  de o := (untag tag o).bind fun v => readVariant vs other v.1 v.2
  names := tag :: (List.finRange n).flatMap fun i => (vs i).object.names
  depth := ((List.finRange n).map fun i => (vs i).object.depth).foldr max 0
  within a m hm := by
    obtain rfl | hm := List.mem_cons.mp hm
    · cases ((List.finRange n).map fun i => (vs i).object.depth).foldr max 0 <;> trivial
    · refine ((vs (pick a).1).object.within _ m hm).mono (List.le_max_of_le ?_ le_rfl)
      exact List.mem_map_of_mem (List.mem_finRange _)
  named a m hm := by
    obtain rfl | hm := List.mem_cons.mp hm
    · exact List.mem_cons_self
    · exact List.mem_cons_of_mem _ (List.mem_flatMap.mpr ⟨_, List.mem_finRange _, (vs (pick a).1).object.named _ m hm⟩)
  de_ser a := by
    have hother : ∀ m ∈ (vs (pick a).1).object.ser (pick a).2, m.1 ≠ tag := by
      rintro m hm rfl
      exact hfresh _ ((vs (pick a).1).object.named _ m hm)
    rw [untag_cons _ hother]
    show readVariant vs other (vs (pick a).1).name _ = some a
    rw [readVariant_name hnames, (vs (pick a).1).object.de_ser, Option.map_some, hpick]

theorem de_tagged {tag : String} {n : ℕ} {vs : Fin n → Variant α} {other : Option α} {pick : α → (i : Fin n) × (vs i).Holds}
    {hpick : ∀ a, (vs (pick a).1).inject (pick a).2 = a} {hnames : Function.Injective fun i => (vs i).name}
    {hfresh : ∀ i, tag ∉ (vs i).object.names} {o : Members} {name : String} (h : o.values tag = [.str name]) :
    (tagged tag vs other pick hpick hnames hfresh).de o = readVariant vs other name (o.filter fun m => m.1 ≠ tag) := by
  show (untag tag o).bind _ = _
  rw [untag, h]
  rfl

theorem values_untagged {tag name : String} (h : name ≠ tag) (o : Members) :
    Members.values (o.filter fun m => m.1 ≠ tag) name = o.values name := by
  simp only [Members.values, List.filter_filter]
  congr 1
  refine List.filter_congr fun m _ => ?_
  by_cases hm : m.1 = name <;> simp [hm, h]

end Object

end Json
