import Mathlib.Data.List.TakeWhile

/-! The words of a list: the nonempty blocks between separators, and the loop that leaves one separator between
two of them. -/

namespace Words
variable {α : Type*} {p : α → Bool}

def words (p : α → Bool) (cs : List α) : List (List α) := (cs.splitOnP p).filter fun w => !w.isEmpty

@[simp]
theorem words_nil : words p [] = [] := rfl

theorem words_append_cons (xs ys : List α) {c : α} (hc : p c = true) :
    words p (xs ++ c :: ys) = words p xs ++ words p ys := by
  rw [words, List.splitOnP_append_cons xs ys hc, List.filter_append]
  rfl

theorem words_cons (cs : List α) {c : α} (hc : p c = true) : words p (c :: cs) = words p cs :=
  words_append_cons [] cs hc

theorem words_eq_singleton {w : List α} (hne : w ≠ []) (h : ∀ c ∈ w, p c = false) : words p w = [w] := by
  rw [words, List.splitOnP_eq_singleton h]
  simp [hne]

theorem words_cons_of_not (cs : List α) {c : α} (hc : p c = false) :
    words p (c :: cs) = (c :: cs.takeWhile fun d => !p d) :: words p (cs.dropWhile fun d => !p d) := by
  have hfree : ∀ d ∈ c :: cs.takeWhile (fun d => !p d), p d = false := by
    intro d hd
    rcases List.mem_cons.mp hd with rfl | hd
    · exact hc
    · simpa using List.mem_takeWhile_imp hd
  have hword := words_eq_singleton (List.cons_ne_nil c _) hfree
  have hsplit := List.takeWhile_append_dropWhile (p := fun d => !p d) (l := cs)
  cases hrest : cs.dropWhile fun d => !p d with
  | nil =>
    rw [hrest, List.append_nil] at hsplit
    rw [hsplit] at hword ⊢
    exact hword
  | cons d ds =>
    have hd : p d = true := by
      have := List.head?_dropWhile_not (fun d => !p d) cs
      simpa [hrest] using this
    have hcs : c :: cs = (c :: cs.takeWhile fun d => !p d) ++ d :: ds := by
      rw [← hrest, List.cons_append, hsplit]
    rw [hcs, words_append_cons _ ds hd, hword, words_cons ds hd]
    rfl

theorem words_ne_nil {cs : List α} {c : α} (hmem : c ∈ cs) (hc : p c = false) : words p cs ≠ [] := by
  induction cs with
  | nil => cases hmem
  | cons d ds ih =>
    cases hd : p d with
    | true =>
      rw [words_cons ds hd]
      refine ih ((List.mem_cons.mp hmem).resolve_left ?_)
      rintro rfl
      rw [hc] at hd
      cases hd
    | false => simp [words_cons_of_not ds hd]

theorem of_mem_words {cs w : List α} (h : w ∈ words p cs) : w ≠ [] ∧ ∀ c ∈ w, p c = false := by
  have hfree : ∀ w ∈ cs.splitOnP p, ∀ c ∈ w, p c = false := by
    clear h
    induction cs with
    | nil => simp
    | cons d ds ih =>
      rw [List.splitOnP_cons_eq_if_modifyHead]
      obtain ⟨block, blocks, hblocks⟩ := List.exists_cons_of_ne_nil (List.splitOnP_ne_nil p ds)
      cases hd : p d with
      | true => simpa using ih
      | false => simpa [hblocks, hd] using ih
  obtain ⟨hmem, hne⟩ := List.mem_filter.mp h
  exact ⟨by simpa using hne, hfree w hmem⟩

theorem words_intercalate {sep : α} (hsep : p sep = true) {ws : List (List α)}
    (h : ∀ w ∈ ws, w ≠ [] ∧ ∀ c ∈ w, p c = false) : words p ([sep].intercalate ws) = ws := by
  induction ws with
  | nil => rfl
  | cons w ws ih =>
    obtain ⟨⟨hne, hfree⟩, hws⟩ := List.forall_mem_cons.mp h
    have hword := words_eq_singleton hne hfree
    cases ws with
    | nil => simpa using hword
    | cons v vs =>
      rw [List.intercalate_cons_cons, List.append_assoc, List.singleton_append, words_append_cons w _ hsep, hword, ih hws]
      rfl

/-! ## Separators at the ends -/

def strip (p : α → Bool) (cs : List α) : List α := ((cs.dropWhile p).reverse.dropWhile p).reverse

theorem words_dropWhile (cs : List α) : words p (cs.dropWhile p) = words p cs := by
  induction cs with
  | nil => rfl
  | cons c cs ih =>
    cases hc : p c with
    | true => rw [List.dropWhile_cons_of_pos hc, ih, words_cons cs hc]
    | false => rw [List.dropWhile_cons_of_neg (by simp [hc])]

theorem words_append_of_all (cs : List α) {seps : List α} (h : ∀ c ∈ seps, p c = true) :
    words p (cs ++ seps) = words p cs := by
  induction seps generalizing cs with
  | nil => rw [List.append_nil]
  | cons c seps ih =>
    obtain ⟨hc, hseps⟩ := List.forall_mem_cons.mp h
    have hnil : words p seps = [] := ih [] hseps
    rw [words_append_cons cs seps hc, hnil, List.append_nil]

theorem strip_append (cs : List α) :
    strip p cs ++ ((cs.dropWhile p).reverse.takeWhile p).reverse = cs.dropWhile p := by
  rw [strip, ← List.reverse_append, List.takeWhile_append_dropWhile, List.reverse_reverse]

theorem words_strip (cs : List α) : words p (strip p cs) = words p cs := by
  rw [← words_dropWhile cs, ← strip_append cs]
  refine (words_append_of_all _ fun c hc => ?_).symm
  exact List.mem_takeWhile_imp (List.mem_reverse.mp hc)

theorem head_dropWhile (cs : List α) {c : α} (h : (cs.dropWhile p).head? = some c) : p c = false := by
  have := List.head?_dropWhile_not p cs
  simpa [h] using this

theorem head_strip (cs : List α) {c : α} (h : (strip p cs).head? = some c) : p c = false := by
  refine head_dropWhile cs ?_
  rw [← strip_append, List.head?_append, h]
  rfl

theorem last_strip {cs : List α} {c : α} (h : (strip p cs).getLast? = some c) : p c = false := by
  rw [strip, List.getLast?_reverse] at h
  exact head_dropWhile _ h

theorem strip_append_of_all {cs seps : List α} (hne : cs ≠ []) (h : ∀ c ∈ cs, p c = false) (hseps : ∀ c ∈ seps, p c = true) :
    strip p (cs ++ seps) = cs := by
  have hkeep : ∀ {ds : List α}, ds ≠ [] → (∀ c ∈ ds, p c = false) → ∀ rest, (ds ++ rest).dropWhile p = ds ++ rest := by
    intro ds hds hfree rest
    cases ds with
    | nil => exact absurd rfl hds
    | cons d ds => exact List.dropWhile_cons_of_neg (by simp [hfree d List.mem_cons_self])
  have hback : (cs.reverse ++ []).dropWhile p = cs.reverse ++ [] :=
    hkeep (by simpa using hne) (fun c hc => h c (List.mem_reverse.mp hc)) []
  rw [List.append_nil] at hback
  rw [strip, hkeep hne h, List.reverse_append, List.dropWhile_append_of_pos fun c hc => hseps c (List.mem_reverse.mp hc),
    hback, List.reverse_reverse]

/-! ## One separator for each run -/

def squeeze (p : α → Bool) (sep : α) : Bool → List α → List α
  | _, [] => []
  | last, c :: cs =>
    if p c then
      if last then squeeze p sep true cs else sep :: squeeze p sep true cs
    else c :: squeeze p sep false cs

theorem intercalate_cons (sep : α) (w : List α) (ws : List (List α)) :
    [sep].intercalate (w :: ws) = w ++ ws.flatMap fun v => sep :: v := by
  induction ws generalizing w with
  | nil => simp
  | cons v vs ih => rw [List.intercalate_cons_cons, ih, List.flatMap_cons, List.append_assoc, List.singleton_append,
    List.cons_append]

/-- After a separator the loop writes the words to come; inside a word it first writes what is left of that word. -/
theorem squeeze_words (sep : α) {cs : List α} (hlast : ∀ c, cs.getLast? = some c → p c = false) :
    squeeze p sep true cs = [sep].intercalate (words p cs) ∧
    squeeze p sep false cs = cs.takeWhile (fun d => !p d) ++ (words p (cs.dropWhile fun d => !p d)).flatMap fun w => sep :: w := by
  induction cs with
  | nil => simp [squeeze]
  | cons c cs ih =>
    have htail : ∀ d, cs.getLast? = some d → p d = false := by
      intro d hd
      refine hlast d ?_
      rw [List.getLast?_cons, hd]
      rfl
    obtain ⟨hout, hin⟩ := ih htail
    cases hc : p c with
    | true =>
      have hne : words p cs ≠ [] := by
        cases h : cs.getLast? with
        | none =>
          have hlast := hlast c (by simp [List.getLast?_cons, h])
          rw [hc] at hlast
          cases hlast
        | some d => exact words_ne_nil (List.mem_of_getLast? h) (htail d h)
      obtain ⟨w, ws, hws⟩ := List.exists_cons_of_ne_nil hne
      constructor
      · simp [squeeze, hc, hout, words_cons cs hc]
      · simp [squeeze, hc, hout, words_cons cs hc, hws, intercalate_cons]
    | false =>
      constructor
      · simp [squeeze, hc, hin, words_cons_of_not cs hc, intercalate_cons]
      · simp [squeeze, hc, hin]

theorem squeeze_strip (sep : α) (cs : List α) : squeeze p sep false (strip p cs) = [sep].intercalate (words p cs) := by
  have hsame : squeeze p sep false (strip p cs) = squeeze p sep true (strip p cs) := by
    cases h : strip p cs with
    | nil => rfl
    | cons c rest =>
      have hc : p c = false := head_strip cs (by rw [h, List.head?_cons])
      simp [squeeze, hc]
  rw [hsame, (squeeze_words sep fun c => last_strip).1, words_strip]

end Words
