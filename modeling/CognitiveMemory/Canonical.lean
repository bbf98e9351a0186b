import CognitiveMemory.Lib.Words
import CognitiveMemory.Daemon.Handlers

/-! The canonical text of the embedding cache: the words of a text with one space between two of them. -/

namespace CognitiveMemory
open Words

def splitWhitespace (text : String) : List String := (words isWhitespace text.toList).map String.ofList

theorem collapseSpaces_eq (last : Bool) (cs : List Char) : collapseSpaces last cs = squeeze isWhitespace ' ' last cs := by
  induction cs generalizing last with
  | nil => cases last <;> rfl
  | cons c cs ih => simp [collapseSpaces, squeeze, ih]

theorem canonicalise_words (text : String) :
    canonicalise text = String.ofList ([' '].intercalate (words isWhitespace text.toList)) := by
  rw [canonicalise, collapseSpaces_eq]
  exact congrArg String.ofList (squeeze_strip ' ' text.toList)

theorem words_canonicalise (text : String) :
    words isWhitespace (canonicalise text).toList = words isWhitespace text.toList := by
  rw [canonicalise_words, String.toList_ofList]
  exact words_intercalate (by decide) fun _ => of_mem_words

theorem splitWhitespace_canonicalise (text : String) : splitWhitespace (canonicalise text) = splitWhitespace text := by
  rw [splitWhitespace, words_canonicalise, splitWhitespace]

/-- Canonical texts are told apart by their words and by nothing else. -/
theorem canonicalise_inj {a b : String} : canonicalise a = canonicalise b ↔ splitWhitespace a = splitWhitespace b := by
  constructor
  · intro h
    rw [← splitWhitespace_canonicalise a, h, splitWhitespace_canonicalise]
  · intro h
    have hwords : words isWhitespace a.toList = words isWhitespace b.toList :=
      List.map_injective_iff.mpr (fun _ _ => String.ofList_inj.mp) h
    rw [canonicalise_words, hwords, canonicalise_words]

theorem canonicalise_idem (text : String) : canonicalise (canonicalise text) = canonicalise text :=
  canonicalise_inj.mpr (splitWhitespace_canonicalise text)

theorem canonicalise_same_words (a b : String) :
    (canonicalise a = canonicalise b ↔ splitWhitespace a = splitWhitespace b) ∧
    canonicalise (canonicalise a) = canonicalise a :=
  ⟨canonicalise_inj, canonicalise_idem a⟩

example : splitWhitespace " a\t\n bc " = ["a", "bc"] := by decide +kernel

end CognitiveMemory
