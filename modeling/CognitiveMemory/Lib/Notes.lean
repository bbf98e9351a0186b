import CognitiveMemory.Lib.Schedule

/-! Programs that take notes of what they do between their commands. Notes ask for no answer, and
without them the program is the one that runs. -/

namespace Prog
variable {C N : Type} {R : C → Type} {ε α β : Type}

@[reducible] def NoteRes (R : C → Type) : C ⊕ List N → Type
  | .inl c => R c
  | .inr _ => Unit

abbrev Noting (C N : Type) (R : C → Type) (ε α : Type) := Prog (C ⊕ List N) (NoteRes R) ε α

def note (ns : List N) : Noting C N R ε Unit := cmd (.inr ns) pure

def lift : Prog C R ε α → Noting C N R ε α
  | pure a => pure a
  | fail e => fail e
  | cmd c k => cmd (.inl c) fun r => (k r).lift

def erase : Noting C N R ε α → Prog C R ε α
  | pure a => pure a
  | fail e => fail e
  | cmd (.inl c) k => cmd c fun r => erase (k r)
  | cmd (.inr _) k => erase (k ())

@[simp] theorem erase_pure (a : α) : erase (pure a : Noting C N R ε α) = pure a := rfl

@[simp] theorem erase_fail (e : ε) : erase (fail e : Noting C N R ε α) = fail e := rfl

@[simp] theorem erase_note (ns : List N) : erase (note ns : Noting C N R ε Unit) = pure () := rfl

@[simp] theorem erase_lift (p : Prog C R ε α) : erase (p.lift : Noting C N R ε α) = p := by
  induction p with
  | pure a => rfl
  | fail e => rfl
  | cmd c k ih =>
    show cmd c (fun r => erase (k r).lift) = cmd c k
    congr 1
    funext r
    exact ih r

@[simp] theorem erase_bind (p : Noting C N R ε α) (f : α → Noting C N R ε β) :
    erase (p.bind f) = (erase p).bind fun a => erase (f a) := by
  induction p with
  | pure a => rfl
  | fail e => rfl
  | cmd c k ih =>
    cases c with
    | inl c =>
      show cmd c (fun r => erase ((k r).bind f)) = cmd c fun r => (erase (k r)).bind fun a => erase (f a)
      congr 1
      funext r
      exact ih r
    | inr ns => exact ih ()

@[simp] theorem erase_mapError {ε' : Type} (f : ε → ε') (p : Noting C N R ε α) : erase (p.mapError f) = (erase p).mapError f := by
  induction p with
  | pure a => rfl
  | fail e => rfl
  | cmd c k ih =>
    cases c with
    | inl c =>
      show cmd c (fun r => erase ((k r).mapError f)) = cmd c fun r => (erase (k r)).mapError f
      congr 1
      funext r
      exact ih r
    | inr ns => exact ih ()

/-! ## What is noted when -/

/-- Having got these answers, the earliest first, the program notes `n` before it issues another
command. -/
def TakesAt (n : N) : Noting C N R ε α → List ((c : C) × R c) → Prop
  | cmd (.inr ns) k, h => h = [] ∧ n ∈ ns ∨ TakesAt n (k ()) h
  | cmd (.inl c) k, e :: h => ∃ r, e = ⟨c, r⟩ ∧ TakesAt n (k r) h
  | _, _ => False

/-- Whatever it is answered, the program notes what is allowed after its history, and ends with `Q`. -/
def Notes (allows : History C R → N → Prop) (Q : α → History C R → Prop) : Noting C N R ε α → History C R → Prop
  | pure a, h => Q a h
  | fail _, _ => True
  | cmd (.inl c) k, h => ∀ r, Notes allows Q (k r) (⟨c, r⟩ :: h)
  | cmd (.inr ns) k, h => (∀ n ∈ ns, allows h n) ∧ Notes allows Q (k ()) h

section
variable {allows : History C R → N → Prop}

theorem Notes.seq {p : Noting C N R ε α} {f : α → Noting C N R ε β} {P : α → History C R → Prop} {Q : β → History C R → Prop}
    {h : History C R} (hp : p.Notes allows P h) (hf : ∀ a h', P a h' → (f a).Notes allows Q h') :
    (p >>= f).Notes allows Q h := by
  rw [bind_eq]
  induction p generalizing h with
  | pure a => exact hf a h hp
  | fail e => trivial
  | cmd c k ih =>
    cases c with
    | inl c => exact fun r => ih r (hp r)
    | inr ns => exact ⟨hp.1, ih () hp.2⟩

theorem Notes.mapError {ε' : Type} {f : ε → ε'} {p : Noting C N R ε α} {Q : α → History C R → Prop} {h : History C R}
    (hp : p.Notes allows Q h) : (p.mapError f).Notes allows Q h := by
  induction p generalizing h with
  | pure a => exact hp
  | fail e => trivial
  | cmd c k ih =>
    cases c with
    | inl c => exact fun r => ih r (hp r)
    | inr ns => exact ⟨hp.1, ih () hp.2⟩

theorem Notes.imp {p : Noting C N R ε α} {P Q : α → History C R → Prop} {h : History C R} (hp : p.Notes allows P h)
    (hPQ : ∀ a h', P a h' → Q a h') : p.Notes allows Q h := by
  induction p generalizing h with
  | pure a => exact hPQ a h hp
  | fail e => trivial
  | cmd c k ih =>
    cases c with
    | inl c => exact fun r => ih r (hp r)
    | inr ns => exact ⟨hp.1, ih () hp.2⟩

theorem Issues.notes {p : Prog C R ε α} {Q : α → History C R → Prop} {h : History C R}
    (hp : p.Issues (fun _ _ => True) Q h) :
    (p.lift : Noting C N R ε α).Notes allows Q h := by
  induction p generalizing h with
  | pure a => exact hp
  | fail e => trivial
  | cmd c k ih => exact fun r => ih r (hp.2 r)

theorem issues_suffix (p : Prog C R ε α) (h : History C R) : p.Issues (fun _ _ => True) (fun _ h' => h <:+ h') h := by
  induction p generalizing h with
  | pure a => exact List.suffix_refl h
  | fail e => trivial
  | cmd c k ih => exact ⟨trivial, fun r => (ih r _).imp fun _ _ hsuffix => (List.suffix_cons _ h).trans hsuffix⟩

/-- What a program notes is allowed after the answers it has got by then. -/
theorem Notes.takesAt {p : Noting C N R ε α} {Q : α → History C R → Prop} {h : History C R} {n : N}
    {answers : List ((c : C) × R c)} (hp : p.Notes allows Q h) (htakes : TakesAt n p answers) :
      allows (answers.reverse ++ h) n := by
  induction p generalizing h answers with
  | pure a => exact htakes.elim
  | fail e => exact htakes.elim
  | cmd c k ih =>
    cases c with
    | inl c =>
      cases answers with
      | nil => exact htakes.elim
      | cons e answers =>
        obtain ⟨r, rfl, hrest⟩ := htakes
        rw [List.reverse_cons, List.append_assoc]
        exact ih r (hp r) hrest
    | inr ns =>
      rcases htakes with ⟨rfl, hn⟩ | hrest
      · exact hp.1 n hn
      · exact ih () hp.2 hrest

end
end Prog
