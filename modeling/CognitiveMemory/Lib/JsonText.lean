import CognitiveMemory.Lib.Json

/-! The compact text of a document, and a reader of it. -/

namespace Json

def quote : Char := .ofNat 34
def backslash : Char := .ofNat 92

/-! ## Numbers -/

def sign (negative : Bool) (n : ℕ) : ℤ := if negative then -n else n

def minus (n : ℤ) : List Char := if n < 0 then ['-'] else []

def fraction (n places : ℕ) : List Char :=
  let digits := Nat.toDigits 10 (n % 10 ^ places)
  List.replicate (places - digits.length) '0' ++ digits

def textDecimal (d : Decimal) : List Char :=
  minus d.mantissa ++ Nat.toDigits 10 (d.mantissa.natAbs / 10 ^ d.places) ++ '.' :: fraction d.mantissa.natAbs d.places

def normalize (m : ℤ) : ℕ → Decimal
  | 0 => .ofInt m
  | 1 => ⟨m, 1, .inl rfl⟩
  | p + 2 => if h : 10 ∣ m then normalize (m / 10) (p + 1) else ⟨m, p + 2, .inr ⟨by omega, h⟩⟩

def whole (n : ℤ) : Json := if -2 ^ 63 ≤ n ∧ n < 2 ^ 64 then .int n else .float (.ofInt n)

def readDigits (cs : List Char) : Option (List Char × List Char) :=
  if cs.takeWhile Char.isDigit = [] then none else some (cs.takeWhile Char.isDigit, cs.dropWhile Char.isDigit)

def readMagnitude (negative : Bool) (cs : List Char) : Option (Json × List Char) := do
  let (digits, rest) ← readDigits cs
  match rest with
  | '.' :: rest =>
    let (places, rest) ← readDigits rest
    return (.float (normalize (sign negative (Nat.ofDigitChars 10 (digits ++ places) 0)) places.length), rest)
  | _ => return (whole (sign negative (Nat.ofDigitChars 10 digits 0)), rest)

def readNumber : List Char → Option (Json × List Char)
  | '-' :: cs => readMagnitude true cs
  | cs => readMagnitude false cs

/-! ## Strings -/

def escape (c : Char) : List Char :=
  if c = quote ∨ c = backslash then [backslash, c]
  else if c.toNat = 8 then [backslash, 'b']
  else if c.toNat = 9 then [backslash, 't']
  else if c.toNat = 10 then [backslash, 'n']
  else if c.toNat = 12 then [backslash, 'f']
  else if c.toNat = 13 then [backslash, 'r']
  else if c.toNat < 32 then [backslash, 'u', '0', '0', (c.toNat / 16).digitChar, (c.toNat % 16).digitChar]
  else [c]

def textString (s : String) : List Char := quote :: s.toList.flatMap escape ++ [quote]

def hexValue (c : Char) : ℕ := if c.isDigit then c.toNat - 48 else c.toNat - 87

def unescape (c : Char) : Char :=
  if c = 'b' then .ofNat 8 else if c = 't' then .ofNat 9 else if c = 'n' then .ofNat 10
  else if c = 'f' then .ofNat 12 else if c = 'r' then .ofNat 13 else c

/-- The characters up to the closing quote. -/
def readString : List Char → Option (List Char × List Char)
  | [] => none
  | c :: cs =>
    if c = quote then some ([], cs)
    else if c ≠ backslash then (readString cs).map fun (s, rest) => (c :: s, rest)
    else match cs with
      | 'u' :: _ :: _ :: hi :: lo :: cs =>
        (readString cs).map fun (s, rest) => (Char.ofNat (hexValue hi * 16 + hexValue lo) :: s, rest)
      | e :: cs => (readString cs).map fun (s, rest) => (unescape e :: s, rest)
      | [] => none

/-! ## Documents -/

mutual
def text : Json → List Char
  | .null => ['n', 'u', 'l', 'l']
  | .bool true => ['t', 'r', 'u', 'e']
  | .bool false => ['f', 'a', 'l', 's', 'e']
  | .int n => minus n ++ Nat.toDigits 10 n.natAbs
  | .float d => textDecimal d
  | .str s => textString s
  | .arr [] => ['[', ']']
  | .arr (x :: xs) => '[' :: text x ++ textElements xs
  | .obj [] => ['{', '}']
  | .obj ((name, x) :: members) => '{' :: textString name ++ ':' :: text x ++ textMembers members
def textElements : List Json → List Char
  | [] => [']']
  | x :: xs => ',' :: text x ++ textElements xs
def textMembers : List (String × Json) → List Char
  | [] => ['}']
  | (name, x) :: members => ',' :: textString name ++ ':' :: text x ++ textMembers members
end

def readWord (word : List Char) (j : Json) (cs : List Char) : Option (Json × List Char) :=
  if cs.take word.length = word then some (j, cs.drop word.length) else none

mutual
def readValue : ℕ → List Char → Option (Json × List Char)
  | 0, _ => none
  | _, [] => none
  | n + 1, c :: cs =>
    if c = 'n' then readWord ['u', 'l', 'l'] .null cs
    else if c = 't' then readWord ['r', 'u', 'e'] (.bool true) cs
    else if c = 'f' then readWord ['a', 'l', 's', 'e'] (.bool false) cs
    else if c = quote then (readString cs).map fun (s, rest) => (.str (.ofList s), rest)
    else if c = '[' then match cs with
      | ']' :: rest => some (.arr [], rest)
      | cs => (readElements n (',' :: cs)).map fun (xs, rest) => (.arr xs, rest)
    else if c = '{' then match cs with
      | '}' :: rest => some (.obj [], rest)
      | cs => (readMembers n (',' :: cs)).map fun (members, rest) => (.obj members, rest)
    else readNumber (c :: cs)
def readElements : ℕ → List Char → Option (List Json × List Char)
  | n + 1, ',' :: cs => do
    let (x, rest) ← readValue n cs
    let (xs, rest) ← readElements n rest
    return (x :: xs, rest)
  | _, ']' :: cs => some ([], cs)
  | _, _ => none
def readMembers : ℕ → List Char → Option (List (String × Json) × List Char)
  | n + 1, ',' :: q :: cs => do
    guard (q = quote)
    let (name, rest) ← readString cs
    match rest with
    | ':' :: rest =>
      let (x, rest) ← readValue n rest
      let (members, rest) ← readMembers n rest
      return ((.ofList name, x) :: members, rest)
    | _ => none
  | _, '}' :: cs => some ([], cs)
  | _, _ => none
end

/-! ## Reading what was written -/

def Digits (cs : List Char) : Prop := ∀ c ∈ cs, c.isDigit

def Stops (rest : List Char) : Prop := ∀ c ∈ rest.head?, ¬ c.isDigit ∧ c ≠ '.'

theorem digits_toDigits (n : ℕ) : Digits (Nat.toDigits 10 n) := fun _ hc => Nat.isDigit_of_mem_toDigits (by decide)
    (by decide) hc

theorem readDigits_append {ds rest : List Char} (hds : Digits ds) (hne : ds ≠ []) (hrest : ∀ c ∈ rest.head?, ¬ c.isDigit) :
    readDigits (ds ++ rest) = some (ds, rest) := by
  have htake : rest.takeWhile Char.isDigit = [] := by
    cases rest with
    | nil => rfl
    | cons c rest => exact List.takeWhile_cons_of_neg (hrest c rfl)
  have hdrop : rest.dropWhile Char.isDigit = rest := by
    cases rest with
    | nil => rfl
    | cons c rest => exact List.dropWhile_cons_of_neg (hrest c rfl)
  rw [readDigits, List.takeWhile_append_of_pos hds, List.dropWhile_append_of_pos hds, htake, hdrop, List.append_nil, if_neg hne]

theorem digits_fraction (n places : ℕ) : Digits (fraction n places) := by
  intro c hc
  obtain hc | hc := List.mem_append.mp hc
  · rw [List.eq_of_mem_replicate hc]
    decide
  · exact digits_toDigits _ c hc

theorem length_fraction (n : ℕ) {places : ℕ} (h : 0 < places) : (fraction n places).length = places := by
  have hlength : (Nat.toDigits 10 (n % 10 ^ places)).length ≤ places :=
    (Nat.length_toDigits_le_iff (by decide) h).mpr (Nat.mod_lt _ (Nat.pow_pos (by decide)))
  simp only [fraction, List.length_append, List.length_replicate]
  omega

theorem ofDigitChars_fraction (n places : ℕ) : Nat.ofDigitChars 10 (fraction n places) 0 = n % 10 ^ places := by
  rw [fraction, Nat.ofDigitChars_append, Nat.ofDigitChars_replicate_zero, Nat.mul_zero,
    Nat.ofDigitChars_toDigits (by decide) (by decide)]

/-- The digits of both sides of the point are those of the mantissa. -/
theorem ofDigitChars_point (n : ℕ) {places : ℕ} (h : 0 < places) :
    Nat.ofDigitChars 10 (Nat.toDigits 10 (n / 10 ^ places) ++ fraction n places) 0 = n := by
  rw [Nat.ofDigitChars_append, Nat.ofDigitChars_toDigits (by decide) (by decide), Nat.ofDigitChars_eq_ofDigitChars_zero,
    length_fraction n h, ofDigitChars_fraction]
  exact Nat.div_add_mod n (10 ^ places)

theorem normalize_normal (d : Decimal) : normalize d.mantissa d.places = d := by
  obtain ⟨m, places, hnormal⟩ := d
  match places with
  | 0 => omega
  | 1 => rfl
  | p + 2 =>
    obtain hone | ⟨-, hlast⟩ := hnormal
    · omega
    · exact dif_neg hlast

theorem sign_natAbs (n : ℤ) : sign (decide (n < 0)) n.natAbs = n := by
  by_cases h : n < 0
  · rw [sign, if_pos (decide_eq_true h)]
    omega
  · rw [sign, if_neg (by simpa using h)]
    omega

theorem readMagnitude_whole (negative : Bool) {n : ℕ} {rest : List Char} (h : Stops rest) :
    readMagnitude negative (Nat.toDigits 10 n ++ rest) = some (whole (sign negative n), rest) := by
  rw [readMagnitude, readDigits_append (digits_toDigits n) Nat.toDigits_ne_nil fun c hc => (h c hc).1]
  simp only [Option.bind_eq_bind, Option.bind_some, Nat.ofDigitChars_toDigits (by decide : 1 < 10) (by decide)]
  split
  · exact absurd rfl (h '.' rfl).2
  · rfl

theorem readMagnitude_point (negative : Bool) {n places : ℕ} (hplaces : 0 < places) {rest : List Char} (h : Stops rest) :
    readMagnitude negative (Nat.toDigits 10 (n / 10 ^ places) ++ '.' :: (fraction n places ++ rest)) =
      some (.float (normalize (sign negative n) places), rest) := by
  have hne : fraction n places ≠ [] := by
    intro hnil
    have := length_fraction n hplaces
    simp [hnil] at this
    omega
  rw [readMagnitude, readDigits_append (digits_toDigits _) Nat.toDigits_ne_nil (by rintro c ⟨⟩; decide)]
  simp only [Option.bind_eq_bind, Option.bind_some]
  rw [readDigits_append (digits_fraction n places) hne fun c hc => (h c hc).1]
  simp only [Option.bind_some, ofDigitChars_point n hplaces, length_fraction n hplaces]
  rfl

theorem readNumber_minus (n : ℤ) {cs : List Char} (h : ∀ c ∈ cs.head?, c.isDigit) :
    readNumber (minus n ++ cs) = readMagnitude (decide (n < 0)) cs := by
  by_cases hn : n < 0
  · rw [minus, if_pos hn, decide_eq_true hn]
    rfl
  · rw [minus, if_neg hn, decide_eq_false hn, List.nil_append]
    unfold readNumber
    split
    · exact absurd (h '-' rfl) (by decide)
    · rfl

theorem readValue_number {n : ℕ} {cs : List Char} (h : ∀ c ∈ cs.head?, c.isDigit ∨ c = '-') :
    readValue (n + 1) cs = readNumber cs := by
  match cs with
  | [] => rfl
  | c :: cs =>
    have hc := h c rfl
    have hother : c ≠ 'n' ∧ c ≠ 't' ∧ c ≠ 'f' ∧ c ≠ quote ∧ c ≠ '[' ∧ c ≠ '{' := by
      refine ⟨?_, ?_, ?_, ?_, ?_, ?_⟩ <;> rintro rfl <;> revert hc <;> decide
    obtain ⟨h1, h2, h3, h4, h5, h6⟩ := hother
    unfold readValue
    rw [if_neg h1, if_neg h2, if_neg h3, if_neg h4, if_neg h5, if_neg h6]

theorem head_minus (n : ℤ) {cs : List Char} (h : ∀ c ∈ cs.head?, c.isDigit) :
    ∀ c ∈ (minus n ++ cs).head?, c.isDigit ∨ c = '-' := by
  unfold minus
  split
  · rintro c ⟨⟩
    exact .inr rfl
  · exact fun c hc => .inl (h c hc)

theorem head_toDigits (n : ℕ) (cs : List Char) : ∀ c ∈ (Nat.toDigits 10 n ++ cs).head?, c.isDigit := by
  intro c hc
  rw [List.head?_append_of_ne_nil _ Nat.toDigits_ne_nil] at hc
  exact digits_toDigits n c (List.mem_of_mem_head? hc)

theorem readValue_int {n : ℕ} {k : ℤ} {rest : List Char} (hk : -2 ^ 63 ≤ k ∧ k < 2 ^ 64) (h : Stops rest) :
    readValue (n + 1) (text (.int k) ++ rest) = some (.int k, rest) := by
  rw [text, List.append_assoc, readValue_number (head_minus k (head_toDigits _ _)), readNumber_minus k (head_toDigits _ _),
    readMagnitude_whole _ h, sign_natAbs, whole, if_pos hk]

theorem readValue_float {n : ℕ} {d : Decimal} {rest : List Char} (h : Stops rest) :
    readValue (n + 1) (text (.float d) ++ rest) = some (.float d, rest) := by
  have hplaces : 0 < d.places := by
    obtain hone | ⟨hlt, -⟩ := d.normal <;> omega
  rw [text, textDecimal, List.append_assoc, List.append_assoc, List.cons_append,
    readValue_number (head_minus _ (head_toDigits _ _)), readNumber_minus _ (head_toDigits _ _),
    readMagnitude_point _ hplaces h, sign_natAbs, normalize_normal]

/-! ### Strings -/

theorem hexValue_digitChar : ∀ n < 16, hexValue n.digitChar = n := by decide

theorem readString_escape (c : Char) (cs : List Char) :
    readString (escape c ++ cs) = (readString cs).map fun (s, rest) => (c :: s, rest) := by
  have hback (e : Char) (he : e ≠ 'u') :
      readString (backslash :: e :: cs) = (readString cs).map fun (s, rest) => (unescape e :: s, rest) := by
    rw [readString, if_neg (by decide), if_neg (by decide)]
    exact fun _ _ _ _ _ h => absurd h he
  have hchar (n : ℕ) (h : c.toNat = n) : Char.ofNat n = c := by rw [← h, Char.ofNat_toNat]
  unfold escape
  split
  · next hc =>
    obtain rfl | rfl := hc
    · exact hback quote (by decide)
    · exact hback backslash (by decide)
  split
  · next hc => rw [← hchar 8 hc]; exact hback 'b' (by decide)
  split
  · next hc => rw [← hchar 9 hc]; exact hback 't' (by decide)
  split
  · next hc => rw [← hchar 10 hc]; exact hback 'n' (by decide)
  split
  · next hc => rw [← hchar 12 hc]; exact hback 'f' (by decide)
  split
  · next hc => rw [← hchar 13 hc]; exact hback 'r' (by decide)
  split
  · next hc =>
    have hhi := hexValue_digitChar (c.toNat / 16) (by omega)
    have hlo := hexValue_digitChar (c.toNat % 16) (by omega)
    have hvalue : c.toNat / 16 * 16 + c.toNat % 16 = c.toNat := by omega
    show readString (backslash :: 'u' :: '0' :: '0' :: _ :: _ :: cs) = _
    rw [readString, if_neg (by decide), if_neg (by decide)]
    simp only [hhi, hlo, hvalue, Char.ofNat_toNat]
  · next hplain _ _ _ _ _ _ =>
    have hquote : c ≠ quote := fun h => hplain (.inl h)
    have hbackslash : c ≠ backslash := fun h => hplain (.inr h)
    show readString (c :: cs) = _
    conv_lhs => unfold readString
    rw [if_neg hquote, if_pos hbackslash]

theorem readString_escapes (cs rest : List Char) : readString (cs.flatMap escape ++ quote :: rest) = some (cs, rest) := by
  induction cs with
  | nil =>
    rw [List.flatMap_nil, List.nil_append]
    unfold readString
    exact if_pos rfl
  | cons c cs ih => rw [List.flatMap_cons, List.append_assoc, readString_escape, ih, Option.map_some]

theorem readString_text (s : String) (rest : List Char) :
    readString (s.toList.flatMap escape ++ [quote] ++ rest) = some (s.toList, rest) := by
  rw [List.append_assoc]
  exact readString_escapes s.toList rest

/-! ### Documents -/

theorem stops_elements (xs : List Json) (rest : List Char) : Stops (textElements xs ++ rest) := by
  cases xs <;> rintro c ⟨⟩ <;> decide

theorem stops_members (members : List (String × Json)) (rest : List Char) : Stops (textMembers members ++ rest) := by
  cases members <;> rintro c ⟨⟩ <;> decide

theorem readWord_append (word : List Char) (j : Json) (rest : List Char) :
    readWord word j (word ++ rest) = some (j, rest) := by
  rw [readWord, List.take_left, if_pos rfl, List.drop_left]

theorem head_text (j : Json) : ∀ c ∈ (text j).head?, c ≠ ']' := by
  match j with
  | .null | .bool true | .bool false | .str _ | .arr [] | .arr (_ :: _) | .obj [] | .obj (_ :: _) =>
    rintro c ⟨⟩
    decide
  | .int n =>
    rintro c hc rfl
    exact absurd (head_minus n (head_toDigits _ []) _ (by simpa [text] using hc)) (by decide)
  | .float d =>
    rintro c hc rfl
    rw [text, textDecimal, List.append_assoc] at hc
    exact absurd (head_minus d.mantissa (head_toDigits _ _) _ hc) (by decide)

theorem length_text_pos (j : Json) : 0 < (text j).length := by
  match j with
  | .null | .bool true | .bool false | .str _ | .arr [] | .arr (_ :: _) | .obj [] | .obj (_ :: _) => exact Nat.succ_pos _
  | .int n =>
    rw [text, List.length_append]
    exact Nat.add_pos_right _ (List.length_pos_iff.mpr Nat.toDigits_ne_nil)
  | .float d =>
    rw [text, textDecimal, List.length_append]
    exact Nat.add_pos_right _ (Nat.succ_pos _)

theorem readValue_elements {n : ℕ} {x : Json} {cs : List Char} :
    readValue (n + 1) ('[' :: (text x ++ cs)) = (readElements n (',' :: (text x ++ cs))).map fun (xs, rest) =>
      (.arr xs, rest) := by
  unfold readValue
  rw [if_neg (by decide), if_neg (by decide), if_neg (by decide), if_neg (by decide), if_pos rfl]
  split
  · next rest h =>
    obtain ⟨c, t, htext⟩ := List.exists_cons_of_length_pos (length_text_pos x)
    rw [htext, List.cons_append] at h
    exact absurd (List.cons.inj h).1 (head_text x c (by rw [htext]; rfl))
  · rfl

theorem readValue_members {n : ℕ} {cs : List Char} :
    readValue (n + 1) ('{' :: quote :: cs) = (readMembers n (',' :: quote :: cs)).map fun (ms, rest) => (.obj ms, rest) := by
  unfold readValue
  rw [if_neg (by decide), if_neg (by decide), if_neg (by decide), if_neg (by decide), if_neg (by decide), if_pos rfl]
  split
  · next h => exact absurd (List.cons.inj h).1 (by decide)
  · rfl

mutual
theorem readValue_text : ∀ (j : Json) {d n : ℕ} {rest : List Char}, j.Within d → 2 * (text j).length ≤ n + 1 → Stops rest →
    readValue (n + 1) (text j ++ rest) = some (j, rest)
  | .null, _, _, rest, _, _, _ => readWord_append ['u', 'l', 'l'] .null rest
  | .bool true, _, _, rest, _, _, _ => readWord_append ['r', 'u', 'e'] (.bool true) rest
  | .bool false, _, _, rest, _, _, _ => readWord_append ['a', 'l', 's', 'e'] (.bool false) rest
  | .int _, 0, _, _, hk, _, hrest | .int _, _ + 1, _, _, hk, _, hrest => readValue_int hk hrest
  | .float x, _, _, _, _, _, hrest => readValue_float hrest
  | .str s, _, n, rest, _, _, _ => by
    show Option.map _ (readString (s.toList.flatMap escape ++ [quote] ++ rest)) = _
    rw [readString_text, Option.map_some]
    simp only [String.ofList_toList]
  | .arr [], _, n, rest, _, _, _ => rfl
  | .arr (x :: xs), d + 1, n, rest, hd, hn, _ => by
    have helements : readElements n (textElements (x :: xs) ++ rest) = some (x :: xs, rest) :=
      readElements_text (x :: xs) hd (by simpa [text, textElements] using hn)
    simp only [text, textElements, List.cons_append, List.append_assoc] at helements ⊢
    rw [readValue_elements, helements]
    rfl
  | .obj [], _, n, rest, _, _, _ => rfl
  | .obj ((name, x) :: members), d + 1, n, rest, hd, hn, _ => by
    have hmembers : readMembers n (textMembers ((name, x) :: members) ++ rest) = some ((name, x) :: members, rest) :=
      readMembers_text ((name, x) :: members) hd (by simpa [text, textMembers] using hn)
    simp only [text, textMembers, textString, List.cons_append, List.append_assoc] at hmembers ⊢
    rw [readValue_members, hmembers]
    rfl
theorem readElements_text : ∀ (xs : List Json) {d n : ℕ} {rest : List Char}, (∀ x ∈ xs, x.Within d) →
    2 * (textElements xs).length ≤ n + 1 → readElements n (textElements xs ++ rest) = some (xs, rest)
  | [], _, n, rest, _, _ => by
    unfold readElements
    cases n <;> rfl
  | x :: xs, d, n, rest, hd, hn => by
    simp only [textElements, List.length_append, List.length_cons] at hn
    have hpos : 0 < (text x).length := length_text_pos x
    obtain ⟨n, rfl⟩ : ∃ m, n = m + 2 := ⟨n - 2, by omega⟩
    have hx : readValue (n + 1) (text x ++ (textElements xs ++ rest)) = some (x, textElements xs ++ rest) :=
      readValue_text x (hd x List.mem_cons_self) (by omega) (stops_elements xs rest)
    have hxs : readElements (n + 1) (textElements xs ++ rest) = some (xs, rest) :=
      readElements_text xs (fun y hy => hd y (List.mem_cons_of_mem x hy)) (by omega)
    rw [textElements, List.cons_append, List.cons_append, List.append_assoc, readElements, hx]
    simp only [Option.bind_eq_bind, Option.bind_some, hxs]
    rfl
theorem readMembers_text : ∀ (members : List (String × Json)) {d n : ℕ} {rest : List Char}, (∀ m ∈ members, m.2.Within d) →
    2 * (textMembers members).length ≤ n + 1 → readMembers n (textMembers members ++ rest) = some (members, rest)
  | [], _, n, rest, _, _ => by
    unfold readMembers
    cases n <;> rfl
  | (name, x) :: members, d, n, rest, hd, hn => by
    simp only [textMembers, List.length_append, List.length_cons] at hn
    have hpos : 0 < (text x).length := length_text_pos x
    obtain ⟨n, rfl⟩ : ∃ m, n = m + 2 := ⟨n - 2, by omega⟩
    have hx : readValue (n + 1) (text x ++ (textMembers members ++ rest)) = some (x, textMembers members ++ rest) :=
      readValue_text x (hd _ List.mem_cons_self) (by omega) (stops_members members rest)
    have hmembers : readMembers (n + 1) (textMembers members ++ rest) = some (members, rest) :=
      readMembers_text members (fun m hm => hd m (List.mem_cons_of_mem _ hm)) (by omega)
    simp only [textMembers, textString, List.cons_append, List.append_assoc]
    rw [readMembers]
    have hname := readString_text name (':' :: (text x ++ (textMembers members ++ rest)))
    simp only [List.append_assoc, List.cons_append, List.nil_append] at hname ⊢
    simp only [Option.bind_eq_bind, guard, if_pos, hname, Option.bind_some, Option.pure_def, hx, hmembers, String.ofList_toList]
end

def toVec (j : Json) : List UInt8 := (text j).flatMap String.utf8EncodeChar

def fromSlice (bytes : List UInt8) : Option Json := do
  let s ← String.fromUTF8? bytes.toByteArray
  let (j, rest) ← readValue (2 * s.length + 1) s.toList
  if rest = [] then some j else none

theorem fromSlice_toVec {d : ℕ} {j : Json} (h : j.Within d) : fromSlice (toVec j) = some j := by
  have hutf8 : String.fromUTF8? (toVec j).toByteArray = some (.ofList (text j)) := dif_pos ⟨text j, rfl⟩
  have hread : readValue (2 * (text j).length + 1) (text j ++ []) = some (j, []) := readValue_text j h (by omega) nofun
  rw [List.append_nil] at hread
  simp only [fromSlice, hutf8, Option.bind_eq_bind, Option.bind_some, String.length_ofList, String.toList_ofList, hread, if_pos]

end Json
