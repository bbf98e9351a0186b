import CognitiveMemory.Lib.Replace
import CognitiveMemory.Store.Machine
import Mathlib.Algebra.Order.Field.Rat

/-! The prompt of the conflict judge: what it holds besides the two contents. -/

namespace CognitiveMemory
open Replace

/-- The template with both placeholders filled at once. -/
def filledPrompt (existing new : String) : String :=
  String.ofList (all [("{existing}".toList, existing.toList), ("{new}".toList, new.toList)] conflictJudgePrompt.toList)

def judgePrompt (existing new : String) : String :=
  (conflictJudgePrompt.replace "{existing}" existing).replace "{new}" new

/-! ## The template -/

def existingMark : List Char := ['{', 'e', 'x', 'i', 's', 't', 'i', 'n', 'g', '}']

def newMark : List Char := ['{', 'n', 'e', 'w', '}']

theorem toList_marks : "{existing}".toList = existingMark ∧ "{new}".toList = newMark := by decide

def promptHead : List Char := "Does the new memory contradict or update an existing memory?\n\nExisting memory: ".toList

def promptMiddle : List Char := "\nNew memory: \"".toList

def promptTail : List Char :=
  ("\"\n\nRespond with exactly one word: CONTRADICTION, UPDATE, OVERLAP, or NONE.\n" ++
    "- CONTRADICTION: the new memory directly negates the existing one\n" ++
    "- UPDATE: the new memory is a newer version of the same fact\n" ++
    "- OVERLAP: they cover similar ground but don't conflict\n" ++ "- NONE: they are unrelated").toList

def around (existing new : List Char) : List Char :=
  promptHead ++ '"' :: (existing ++ '"' :: (promptMiddle ++ (new ++ promptTail)))

theorem toList_template : conflictJudgePrompt.toList = around existingMark newMark := by
  unfold conflictJudgePrompt around promptHead promptMiddle promptTail
  simp only [String.toList_append]
  -- A literal is the text of its characters; the kernel would otherwise decode its bytes.
  repeat rw [String.toList_ofList]
  rfl

theorem brace_notMem : '{' ∉ promptHead ++ ['"'] ∧ '{' ∉ '"' :: promptMiddle ∧ '{' ∉ promptTail := by
  unfold promptHead promptMiddle promptTail
  simp only [String.toList_append]
  repeat rw [String.toList_ofList]
  decide +kernel

theorem all_around {subs : List (Subst Char)} (hq : ∀ p ∈ subs, p.1.head? = some '{') {pat pat' rep rep' : List Char}
    (hpat : ∀ cs, all subs (pat ++ cs) = rep ++ all subs cs) (hpat' : ∀ cs, all subs (pat' ++ cs) = rep' ++ all subs cs) :
    all subs (around pat pat') = around rep rep' := by
  have hparts (pat pat' : List Char) : around pat pat' =
      (promptHead ++ ['"']) ++ (pat ++ (('"' :: promptMiddle) ++ (pat' ++ promptTail))) := by
    simp only [around, List.append_assoc, List.cons_append, List.nil_append]
  rw [hparts, all_append_of_absent hq brace_notMem.1, hpat, all_append_of_absent hq brace_notMem.2.1, hpat',
    all_of_absent hq brace_notMem.2.2, hparts]

theorem toList_filledPrompt (existing new : String) :
    (filledPrompt existing new).toList = around existing.toList new.toList := by
  unfold filledPrompt
  rw [String.toList_ofList, toList_template, toList_marks.1, toList_marks.2]
  apply all_around
  · simp [existingMark, newMark]
  · intro cs
    exact all_match (by decide) (List.find?_cons_of_pos (decide_eq_true (List.prefix_append existingMark cs)))
  · intro cs
    apply all_match (by decide)
    rw [List.find?_cons_of_neg (by simp [existingMark, newMark])]
    exact List.find?_cons_of_pos (decide_eq_true (List.prefix_append newMark cs))

/-! ## The two passes -/

theorem first_pass (existing : List Char) :
    one existingMark existing (around existingMark newMark) = around existing newMark := by
  have hq : ∀ p ∈ [(existingMark, existing)], p.1.head? = some '{' := by simp [existingMark]
  apply all_around hq
  · exact one_match (by decide)
  · intro cs
    -- The other placeholder differs in its second character and has no second brace.
    have hmiss : ¬ existingMark <+: '{' :: (['n', 'e', 'w', '}'] ++ cs) := by simp [existingMark]
    have hrest := all_append_of_absent hq (m := ['n', 'e', 'w', '}']) (by decide) cs
    exact (one_cons hmiss).trans (congrArg ('{' :: ·) hrest)

theorem second_pass (existing new : List Char) :
    one newMark new (around existing newMark) = around (one newMark new existing) new := by
  have hq : ∀ p ∈ [(newMark, new)], p.1.head? = some '{' := by simp [newMark]
  have hhead : one newMark new promptHead = promptHead :=
    all_of_absent hq fun hmem => brace_notMem.1 (List.mem_append_left _ hmem)
  have hmiddle : '{' ∉ promptMiddle := fun hmem => brace_notMem.2.1 (List.mem_cons_of_mem _ hmem)
  have hrest : one newMark new (promptMiddle ++ (newMark ++ promptTail)) = promptMiddle ++ (new ++ promptTail) := by
    have htail : one newMark new promptTail = promptTail := all_of_absent hq brace_notMem.2.2
    have hplace : one newMark new (newMark ++ promptTail) = new ++ promptTail := by
      rw [one_match (by decide), htail]
    exact (all_append_of_absent hq hmiddle _).trans (congrArg (promptMiddle ++ ·) hplace)
  unfold around
  rw [one_append_fence (by decide) (by decide), one_append_fence (by decide) (by decide), hhead, hrest]

/-- Of the existing content the second pass leaves what it finds no placeholder in. -/
theorem toList_judgePrompt (existing new : String) : (judgePrompt existing new).toList =
    around (one newMark new.toList existing.toList) new.toList := by
  unfold judgePrompt
  rw [toList_replace _ (by decide), toList_replace _ (by decide), toList_marks.1, toList_marks.2, toList_template,
    first_pass, second_pass]

theorem around_inj {existing existing' new : List Char} (h : around existing new = around existing' new) :
    existing = existing' := by
  unfold around at h
  have hbehind := List.tail_eq_of_cons_eq (List.append_cancel_left h)
  exact List.append_cancel_right hbehind

theorem judgePrompt_eq_iff (existing new : String) : judgePrompt existing new = filledPrompt existing new ↔
    ¬ "{new}".toList <:+: existing.toList ∨ new = "{new}" := by
  rw [← String.toList_inj, toList_judgePrompt, toList_filledPrompt]
  have hmark : new.toList = newMark ↔ new = "{new}" := by rw [← toList_marks.2, String.toList_inj]
  rw [toList_marks.2, ← hmark, ← one_eq_self_iff (by decide)]
  constructor
  · exact around_inj
  · intro hsame
    rw [hsame]

/-! ## The judge -/

section
variable {F : Type}

/-- The verdict on a pair when the completion of this prompt is the `call`-th of the pass. -/
def verdictOf (answer : Except String String) : ConflictLabel × ℕ :=
  match answer with
  | .ok raw => (parseConflictLabel raw, 1)
  | .error _ => (.none_, 1)

theorem judge_eq (answers : ℕ → String → Except String String) (acc : Resolving F) (n e : MemoryRow F) :
    acc.judge true answers n e = verdictOf (answers acc.calls (judgePrompt e.content n.content)) := rfl

/-- A judge that contradicts on one prompt alone tells it from any other. -/
theorem judgePrompt_of_judge {n e : MemoryRow F} {prompt : String}
    (hall : ∀ (answers : ℕ → String → Except String String) (acc : Resolving F),
      acc.judge true answers n e = verdictOf (answers acc.calls prompt)) : judgePrompt e.content n.content = prompt := by
  by_contra hother
  let answers : ℕ → String → Except String String := fun _ asked =>
    if asked = prompt then .ok "CONTRADICTION" else .error "unknown"
  have hverdict := hall answers ⟨Db.empty, 0, 0⟩
  rw [judge_eq] at hverdict
  simp only [answers, if_neg hother, if_pos, verdictOf] at hverdict
  exact absurd (congrArg Prod.fst hverdict) (by decide)

/-- The judge is asked about the template with both contents in place, whatever it may answer, if and only if the
existing content does not hold the other placeholder, or the new content is that placeholder. -/
theorem judge_sees_contents_iff (n e : MemoryRow F) :
    (∀ (answers : ℕ → String → Except String String) (acc : Resolving F),
      acc.judge true answers n e = verdictOf (answers acc.calls (filledPrompt e.content n.content))) ↔
    (¬ "{new}".toList <:+: e.content.toList ∨ n.content = "{new}") := by
  rw [← judgePrompt_eq_iff]
  constructor
  · exact judgePrompt_of_judge
  · intro hsame answers acc
    rw [judge_eq, hsame]

end

/-- A memory about a template, against one that names the template's argument. -/
theorem template_memory_filled : ¬ ∀ (n e : MemoryRow ℚ) (answers : ℕ → String → Except String String)
    (acc : Resolving ℚ),
    acc.judge true answers n e = verdictOf (answers acc.calls (filledPrompt e.content n.content)) := by
  intro hall
  let e : MemoryRow ℚ := .newMinimal "mem_e" "alice" "run {new}" "semantic" "fact" 0
  let n : MemoryRow ℚ := .newMinimal "mem_n" "alice" "run tea" "semantic" "fact" 1
  have hmark : "{new}".toList <:+: e.content.toList := ⟨"run ".toList, [], by decide⟩
  have hsame : judgePrompt e.content n.content = filledPrompt e.content n.content := judgePrompt_of_judge (hall n e)
  rcases (judgePrompt_eq_iff _ _).mp hsame with hnone | hnew
  · exact hnone hmark
  · exact absurd hnew (by decide)

end CognitiveMemory
