import Mathlib.Algebra.Group.Nat.Defs
import Mathlib.Data.List.Basic
import Mathlib.Tactic.Common

/-! Decoders that read items off a stream as its bytes arrive: what they read does not depend on
how the stream is cut into reads. The length-prefixed frames are one such decoder. -/

namespace Framing
variable {σ β ι κ : Type}

inductive Outcome (σ β ι : Type)
  | more (state : σ) (rest : List β)
  | item (x : ι) (state : σ) (rest : List β)
  | error
  deriving DecidableEq

def Outcome.extend (decode : σ → List β → Outcome σ β ι) (c : List β) : Outcome σ β ι → Outcome σ β ι
  | .more s r => decode s (r ++ c)
  | .item x s r => .item x s (r ++ c)
  | .error => .error

/-- A decoder of a growing buffer. `held` counts the bytes a state stands for: those taken out of
the buffer for an item that is still to come. -/
structure Decoder (σ β ι : Type) where
  decode : σ → List β → Outcome σ β ι
  held : σ → ℕ
  append : ∀ s b c, decode s (b ++ c) = (decode s b).extend decode c
  keeps : ∀ {s b s' r}, decode s b = .more s' r → r.length + held s' = b.length + held s
  shrinks : ∀ {s b x s' r}, decode s b = .item x s' r → r.length + held s' < b.length + held s

/-- What was read, and the state and buffer that are left; none after an error. -/
structure Drained (ι σ β : Type) where
  items : List ι
  left : Option (σ × List β)
  deriving DecidableEq

namespace Drained

def cons (x : ι) (t : Drained ι σ β) : Drained ι σ β := ⟨x :: t.items, t.left⟩

def resume (t : Drained ι σ β) (f : σ → List β → Drained ι σ β) : Drained ι σ β :=
  match t.left with
  | none => t
  | some (s, r) => ⟨t.items ++ (f s r).items, (f s r).left⟩

variable {t : Drained ι σ β} {f g : σ → List β → Drained ι σ β}

theorem cons_resume (x : ι) : (t.cons x).resume f = (t.resume f).cons x := by
  obtain ⟨items, left⟩ := t
  cases left <;> rfl

theorem resume_congr (h : ∀ s r, t.left = some (s, r) → f s r = g s r) : t.resume f = t.resume g := by
  obtain ⟨items, left⟩ := t
  cases left with
  | none => rfl
  | some l => simp only [resume, h l.1 l.2 rfl]

end Drained

namespace Decoder
variable (d : Decoder σ β ι)

def drain (s : σ) (b : List β) : Drained ι σ β :=
  match h : d.decode s b with
  | .more s' r => ⟨[], some (s', r)⟩
  | .item x s' r =>
    have := d.shrinks h
    (drain s' r).cons x
  | .error => ⟨[], none⟩
termination_by b.length + d.held s

/-- Read a stream that comes in chunks, draining the buffer after each. -/
def feed (s : σ) (b : List β) : List (List β) → Drained ι σ β
  | [] => ⟨[], some (s, b)⟩
  | c :: cs => (d.drain s (b ++ c)).resume fun s' r => feed s' r cs

variable {d} {s s' : σ} {b b' r : List β} {x : ι}

theorem drain_more (h : d.decode s b = .more s' r) : d.drain s b = ⟨[], some (s', r)⟩ := by
  rw [drain]
  split <;> simp_all

theorem drain_item (h : d.decode s b = .item x s' r) : d.drain s b = (d.drain s' r).cons x := by
  rw [drain]
  split <;> simp_all

theorem drain_error (h : d.decode s b = .error) : d.drain s b = ⟨[], none⟩ := by
  rw [drain]
  split <;> simp_all

def Resting (d : Decoder σ β ι) (s : σ) (b : List β) : Prop := d.decode s b = .more s b

theorem resting_of_more (h : d.decode s b = .more s' r) : d.Resting s' r := by
  have happend := d.append s b []
  rw [h, List.append_nil, h, Outcome.extend, List.append_nil] at happend
  exact happend.symm

theorem resting_of_drain (h : (d.drain s b).left = some (s', r)) : d.Resting s' r := by
  induction s, b using drain.induct d with
  | case1 s b _ _ hmore =>
    rw [drain_more hmore] at h
    cases h
    exact resting_of_more hmore
  | case2 s b x _ _ hitem _ ih =>
    rw [drain_item hitem] at h
    exact ih h
  | case3 s b herror =>
    rw [drain_error herror] at h
    cases h

theorem drain_append (s : σ) (b c : List β) : d.drain s (b ++ c) = (d.drain s b).resume fun s' r => d.drain s' (r ++ c) := by
  have happend := d.append s b c
  induction s, b using drain.induct d with
  | case1 s b s' r hmore =>
    rw [drain_more hmore]
    show d.drain s (b ++ c) = d.drain s' (r ++ c)
    rw [hmore] at happend
    -- both sides decode the same way, whatever comes out
    cases h : d.decode s' (r ++ c) with
    | more => rw [drain_more h, drain_more (happend.trans h)]
    | item => rw [drain_item h, drain_item (happend.trans h)]
    | error => rw [drain_error h, drain_error (happend.trans h)]
  | case2 s b x s' r hitem _ ih =>
    rw [hitem] at happend
    rw [drain_item hitem, drain_item happend, ih (d.append s' r c), Drained.cons_resume]
  | case3 s b herror =>
    rw [herror] at happend
    rw [drain_error herror, drain_error happend]
    rfl

theorem feed_eq_drain (h : d.Resting s b) (cs : List (List β)) : d.feed s b cs = d.drain s (b ++ cs.flatten) := by
  induction cs generalizing s b with
  | nil =>
    rw [List.flatten_nil, List.append_nil, drain_more h]
    rfl
  | cons c cs ih =>
    rw [feed, List.flatten_cons, ← List.append_assoc, drain_append s (b ++ c)]
    exact Drained.resume_congr fun s' r hleft => ih (resting_of_drain hleft)

/-! ## Part of a stream -/

theorem drain_keeps (h : (d.drain s b).left = some (s', r)) (hitems : (d.drain s b).items = []) :
    r.length + d.held s' = b.length + d.held s := by
  cases hdecode : d.decode s b with
  | more =>
    rw [drain_more hdecode] at h
    cases h
    exact d.keeps hdecode
  | item =>
    rw [drain_item hdecode] at hitems
    cases hitems
  | error =>
    rw [drain_error hdecode] at h
    cases h

/-- A stream that decodes to the end has no part that fails, or that already gives every item. -/
theorem drain_strict_part {p q : List β} {xs : List ι} (h : d.drain s (p ++ q) = ⟨xs, some (s', [])⟩) (hheld : d.held s' = 0)
    (hq : q ≠ []) : ∃ ys left, d.drain s p = ⟨ys, some left⟩ ∧ ys <+: xs ∧ ys ≠ xs := by
  rw [drain_append] at h
  cases hpart : (d.drain s p).left with
  | none =>
    rw [Drained.resume, hpart] at h
    change d.drain s p = _ at h
    rw [h] at hpart
    cases hpart
  | some left =>
    obtain ⟨m, r⟩ := left
    rw [Drained.resume, hpart, Drained.mk.injEq] at h
    obtain ⟨hitems, hleft⟩ := h
    refine ⟨(d.drain s p).items, (m, r), by rw [← hpart], ⟨_, hitems⟩, ?_⟩
    intro hall
    have hnone : (d.drain m (r ++ q)).items = [] := by
      rw [← hall] at hitems
      exact List.self_eq_append_right.mp hitems.symm
    have hlength := drain_keeps hleft hnone
    simp only [List.length_nil, List.length_append, hheld] at hlength
    exact hq (List.length_eq_zero_iff.mp (by omega))

theorem part_more {p c : List β} (h : d.decode s (p ++ c) = .item x s' []) (hc : c ≠ []) : ∃ s'' r, d.decode s p =
    .more s'' r := by
  have happend := d.append s p c
  rw [h] at happend
  cases hp : d.decode s p with
  | more s'' r => exact ⟨s'', r, rfl⟩
  | error =>
    rw [hp] at happend
    cases happend
  | item y s'' r =>
    rw [hp, Outcome.extend, Outcome.item.injEq] at happend
    exact absurd (List.append_eq_nil_iff.mp happend.2.2.symm).2 hc

/-! ## Items read further -/

def parse (d : Decoder σ β ι) (f : ι → Option κ) : Decoder σ β κ where
  decode s b := match d.decode s b with
    | .more s' r => .more s' r
    | .item x s' r => match f x with
      | some y => .item y s' r
      | none => .error
    | .error => .error
  held := d.held
  append s b c := by
    rw [d.append]
    cases d.decode s b with
    | more s' r => rfl
    | item x s' r => cases hf : f x <;> simp only [Outcome.extend, hf]
    | error => rfl
  keeps {s b s' r} h := by
    split at h
    · next hmore =>
      cases h
      exact d.keeps hmore
    · split at h <;> cases h
    · cases h
  shrinks {s b x s' r} h := by
    split at h
    · cases h
    · next hitem =>
      split at h <;> cases h
      exact d.shrinks hitem
    · cases h

theorem parse_item {f : ι → Option κ} {y : κ} (h : d.decode s b = .item x s' r) (hf : f x = some y) :
    (d.parse f).decode s b = .item y s' r := by
  simp only [parse, h, hf]

end Decoder

/-! ## Length-prefixed frames -/

def bigEndian (n : ℕ) : List UInt8 :=
  [UInt8.ofNat (n / 2 ^ 24), UInt8.ofNat (n / 2 ^ 16), UInt8.ofNat (n / 2 ^ 8), UInt8.ofNat n]

def fromBigEndian (a b c d : UInt8) : ℕ := a.toNat * 2 ^ 24 + b.toNat * 2 ^ 16 + c.toNat * 2 ^ 8 + d.toNat

theorem fromBigEndian_bigEndian {n : ℕ} (h : n < 2 ^ 32) :
    fromBigEndian (UInt8.ofNat (n / 2 ^ 24)) (UInt8.ofNat (n / 2 ^ 16)) (UInt8.ofNat (n / 2 ^ 8)) (UInt8.ofNat n) = n := by
  simp only [fromBigEndian, UInt8.toNat_ofNat']
  omega

def frame (p : List UInt8) : List UInt8 := bigEndian p.length ++ p

def takeData (n : ℕ) (b : List UInt8) : Outcome (Option ℕ) UInt8 (List UInt8) :=
  if b.length < n then .more (some n) b else .item (b.take n) none (b.drop n)

def takeHead (max : ℕ) : List UInt8 → Outcome (Option ℕ) UInt8 (List UInt8)
  | a :: b :: c :: d :: rest => if max < fromBigEndian a b c d then .error else takeData (fromBigEndian a b c d) rest
  | b => .more none b

def takeFrame (max : ℕ) : Option ℕ → List UInt8 → Outcome (Option ℕ) UInt8 (List UInt8)
  | some n => takeData n
  | none => takeHead max

section
variable {max n : ℕ} {s s' : Option ℕ} {b r x : List UInt8}

theorem takeData_more (h : takeData n b = .more s' r) : s' = some n ∧ r = b := by
  unfold takeData at h
  split at h <;> cases h
  exact ⟨rfl, rfl⟩

theorem takeData_item (h : takeData n b = .item x s' r) : n ≤ b.length ∧ x = b.take n ∧ s' = none ∧ r = b.drop n := by
  unfold takeData at h
  split at h <;> cases h
  exact ⟨by omega, rfl, rfl, rfl⟩

theorem takeData_append (max n : ℕ) (b c : List UInt8) : takeData n (b ++ c) = (takeData n b).extend (takeFrame max) c := by
  by_cases h : b.length < n
  · rw [takeData, takeData, if_pos h]
    rfl
  · have hlong : ¬ (b ++ c).length < n := by
      rw [List.length_append]
      omega
    have hle : n ≤ b.length := by omega
    rw [takeData, takeData, if_neg h, if_neg hlong, List.take_append_of_le_length hle, List.drop_append_of_le_length hle]
    rfl

theorem takeHead_append (max : ℕ) (b c : List UInt8) :
    takeHead max (b ++ c) = (takeHead max b).extend (takeFrame max) c := by
  match b with
  | e :: f :: g :: h :: rest =>
    show (if _ then _ else takeData _ (rest ++ c)) = (if _ then _ else takeData _ rest).extend (takeFrame max) c
    split
    · rfl
    · exact takeData_append max _ rest c
  | [] | [_] | [_, _] | [_, _, _] => rfl

theorem takeHead_cases (max : ℕ) (b : List UInt8) :
    (takeHead max b = .more none b ∧ b.length < 4) ∨ takeHead max b = .error ∨
      ∃ n rest, takeHead max b = takeData n rest ∧ b.length = rest.length + 4 := by
  match b with
  | e :: f :: g :: h :: rest =>
    by_cases hmax : max < fromBigEndian e f g h
    · exact .inr (.inl (if_pos hmax))
    · exact .inr (.inr ⟨_, rest, if_neg hmax, rfl⟩)
  | [] | [_] | [_, _] | [_, _, _] => exact .inl ⟨rfl, by simp⟩

def lengthDelimited (max : ℕ) : Decoder (Option ℕ) UInt8 (List UInt8) where
  decode := takeFrame max
  held s := s.elim 0 fun _ => 4
  append s b c := by
    cases s with
    | none => exact takeHead_append max b c
    | some n => exact takeData_append max n b c
  keeps {s b s' r} h := by
    cases s with
    | none =>
      obtain ⟨hmore, -⟩ | herror | ⟨n, rest, hdata, hlength⟩ := takeHead_cases max b
      · cases hmore.symm.trans h
        rfl
      · cases herror.symm.trans h
      · obtain ⟨rfl, rfl⟩ := takeData_more (hdata.symm.trans h)
        exact hlength.symm
    | some n =>
      obtain ⟨rfl, rfl⟩ := takeData_more h
      rfl
  shrinks {s b x s' r} h := by
    cases s with
    | none =>
      obtain ⟨hmore, -⟩ | herror | ⟨n, rest, hdata, hlength⟩ := takeHead_cases max b
      · cases hmore.symm.trans h
      · cases herror.symm.trans h
      · obtain ⟨-, -, rfl, rfl⟩ := takeData_item (hdata.symm.trans h)
        simp only [List.length_drop, Option.elim]
        omega
    | some n =>
      obtain ⟨-, -, rfl, rfl⟩ := takeData_item h
      simp only [List.length_drop, Option.elim]
      omega

theorem decode_frame (hmax : max < 2 ^ 32) {p : List UInt8} (hp : p.length ≤ max) (rest : List UInt8) :
    (lengthDelimited max).decode none (frame p ++ rest) = .item p none rest := by
  have hn := fromBigEndian_bigEndian (Nat.lt_of_le_of_lt hp hmax)
  show (if _ then _ else takeData _ (p ++ rest)) = _
  rw [hn, if_neg (by omega), takeData, if_neg (by simp), List.take_left, List.drop_left]

variable {f : List UInt8 → Option κ}

theorem parse_resting_empty (max : ℕ) (f : List UInt8 → Option κ) : ((lengthDelimited max).parse f).Resting none [] := rfl

/-- Frames one after another are read as what their payloads stand for. -/
theorem drain_frames (hmax : max < 2 ^ 32) {ps : List (List UInt8)} {ys : List κ}
    (h : List.Forall₂ (fun p y => f p = some y) ps ys) (hfit : ∀ p ∈ ps, p.length ≤ max) :
    ((lengthDelimited max).parse f).drain none (ps.map frame).flatten = ⟨ys, some (none, [])⟩ := by
  induction h with
  | nil => exact Decoder.drain_more (parse_resting_empty max f)
  | @cons p y ps ys hy _ ih =>
    have hframe := decode_frame hmax (hfit p List.mem_cons_self) (ps.map frame).flatten
    rw [List.map_cons, List.flatten_cons, Decoder.drain_item (Decoder.parse_item hframe hy),
      ih fun q hq => hfit q (List.mem_cons_of_mem p hq)]
    rfl

end

end Framing
