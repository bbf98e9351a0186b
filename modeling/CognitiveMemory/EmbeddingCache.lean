import CognitiveMemory.Canonical
import CognitiveMemory.Lib.Memo

/-! The embedding cache with the bytes of its rows: what any interleaving of `CachedEmbeddings::embed` calls
returns and leaves in the table. -/

namespace CognitiveMemory
open Memo

/-! ## Vectors as bytes -/

abbrev F32 := UInt32

def toLeBytes (f : F32) : List UInt8 :=
  [.ofNat f.toNat, .ofNat (f.toNat / 2 ^ 8), .ofNat (f.toNat / 2 ^ 16), .ofNat (f.toNat / 2 ^ 24)]

def fromLeBytes (a b c d : UInt8) : F32 :=
  .ofNat (a.toNat + 2 ^ 8 * b.toNat + 2 ^ 16 * c.toNat + 2 ^ 24 * d.toNat)

def encodeVector (vector : List F32) : List UInt8 := vector.flatMap toLeBytes

/-- The map over `chunks_exact(4)`, which leaves out what does not fill a chunk. -/
def decodeVector : List UInt8 → List F32
  | a :: b :: c :: d :: rest => fromLeBytes a b c d :: decodeVector rest
  | _ => []

theorem fromLeBytes_toNat (f : F32) : fromLeBytes (.ofNat f.toNat) (.ofNat (f.toNat / 2 ^ 8)) (.ofNat (f.toNat / 2 ^ 16))
    (.ofNat (f.toNat / 2 ^ 24)) = f := by
  have hf : f.toNat < 2 ^ 32 := f.toNat_lt
  apply UInt32.toNat_inj.mp
  simp only [fromLeBytes, UInt32.toNat_ofNat', UInt8.toNat_ofNat']
  omega

theorem decodeVector_encodeVector (vector : List F32) : decodeVector (encodeVector vector) = vector := by
  induction vector with
  | nil => rfl
  | cons f vector ih =>
    have hcons : decodeVector (encodeVector (f :: vector)) = fromLeBytes (.ofNat f.toNat) (.ofNat (f.toNat / 2 ^ 8))
        (.ofNat (f.toNat / 2 ^ 16)) (.ofNat (f.toNat / 2 ^ 24)) :: decodeVector (encodeVector vector) := rfl
    rw [hcons, fromLeBytes_toNat, ih]

/-! ## Cached calls -/

structure EmbeddingCall where
  provider : String
  model : String
  text : String
  deriving DecidableEq, Repr

abbrev EmbeddingKey := String × String × List UInt8

/-- `CachedEmbeddings` over one store, for every provider: its name and model determine the function. -/
structure CachedEmbeddings where
  provider : EmbeddingCall → Except EmbeddingError (List F32)
  sha256 : ByteArray → List UInt8

abbrev EmbedM (α : Type) := CallM EmbeddingCall EmbeddingKey (List UInt8) (List F32) EmbeddingError α

abbrev EmbeddingCalls := Spec.Calls EmbeddingCall EmbeddingKey (List UInt8) (List F32) EmbeddingError

namespace CachedEmbeddings
variable (c : CachedEmbeddings)

def embed (call : EmbeddingCall) : EmbedM (List F32) := do
  let canonical := canonicalise call.text
  let hash := c.sha256 canonical.toUTF8
  let cached ← lookup (call.provider, call.model, hash)
  match cached with
  | some bytes => pure (decodeVector bytes)
  | none => do
    let vector ← compute { call with text := canonical }
    store (call.provider, call.model, hash) (encodeVector vector)
    pure vector

def memo : Spec EmbeddingCall EmbeddingKey (List UInt8) (List F32) EmbeddingError where
  key call := (call.provider, call.model, c.sha256 call.text.toUTF8)
  answer := c.provider
  encode := encodeVector
  decode := decodeVector
  put := putIfAbsent

def IsOver (p : EmbeddingCalls) (i : ℕ) (result : Except EmbeddingError (List F32)) : Prop :=
  ∃ label, Spec.Ended p i label result

def calls (fates : ℕ → Fate EmbeddingError) (made : List EmbeddingCall) : EmbeddingCalls :=
  Prog.Pool.start ⟨[], fates⟩ (made.map fun call => ({ call with text := canonicalise call.text }, c.embed call))

theorem call_eq (call : EmbeddingCall) : c.memo.call { call with text := canonicalise call.text } = c.embed call := by
  unfold embed Spec.call
  congr 1
  funext found
  cases found <;> rfl

theorem calls_eq (fates : ℕ → Fate EmbeddingError) (made : List EmbeddingCall) :
    c.memo.calls fates (made.map fun call => { call with text := canonicalise call.text }) = c.calls fates made := by
  unfold Spec.calls calls
  rw [List.map_map]
  congr 2
  funext call
  exact congrArg (Prod.mk _) (c.call_eq call)

variable {c}

theorem lawful (hsha : Function.Injective c.sha256) : c.memo.Lawful fun _ => True where
  decode_encode := fun _ vector _ _ => decodeVector_encodeVector vector
  agree := by
    intro call call' _ _ hkey
    obtain ⟨hprovider, hmodel, hhash⟩ : call.provider = call'.provider ∧ call.model = call'.model ∧
        c.sha256 call.text.toUTF8 = c.sha256 call'.text.toUTF8 := by simpa [memo] using hkey
    have htext : call.text = call'.text := String.toByteArray_inj.mp (hsha hhash)
    have hsame : call = call' := by
      cases call
      cases call'
      simp only [EmbeddingCall.mk.injEq]
      exact ⟨hprovider, hmodel, htext⟩
    rw [hsame]
  puts := puts_putIfAbsent

/-- Two calls meet in one row when they ask one provider and model for the same words. -/
theorem key_iff_words (hsha : Function.Injective c.sha256) (call call' : EmbeddingCall) :
    c.memo.key { call with text := canonicalise call.text } = c.memo.key { call' with text := canonicalise call'.text } ↔
      call.provider = call'.provider ∧ call.model = call'.model ∧ splitWhitespace call.text = splitWhitespace call'.text := by
  have hhash : c.sha256 (canonicalise call.text).toUTF8 = c.sha256 (canonicalise call'.text).toUTF8 ↔
      splitWhitespace call.text = splitWhitespace call'.text :=
    hsha.eq_iff.trans (String.toByteArray_inj.trans canonicalise_inj)
  rw [← hhash]
  simp [memo]

theorem sound (hsha : Function.Injective c.sha256) (fates : ℕ → Fate EmbeddingError) (made : List EmbeddingCall)
    (schedule : List ℕ) :
      Spec.Sound c.memo (fun _ => True) (fun _ => True) ((c.calls fates made).play (Memo.exec c.memo) schedule) := by
  rw [← c.calls_eq]
  exact (Spec.sound_calls (fun _ _ _ => trivial) fun _ _ => trivial).play (lawful hsha) schedule

theorem labelled {fates : ℕ → Fate EmbeddingError} {made : List EmbeddingCall} {schedule : List ℕ} {i : ℕ}
    {call label : EmbeddingCall} {result : Except EmbeddingError (List F32)} (hcall : made[i]? = some call)
    (hover : Spec.Ended ((c.calls fates made).play (Memo.exec c.memo) schedule) i label result) :
    label = { call with text := canonicalise call.text } := by
  have hlabel : (((c.calls fates made).play (Memo.exec c.memo) schedule).tasks.map Prod.fst)[i]? = some label := by
    rw [List.getElem?_map]
    cases result with
    | ok vector => rw [show _ = some (label, Prog.pure vector) from hover, Option.map_some]
    | error error => rw [show _ = some (label, Prog.fail error) from hover, Option.map_some]
  rw [Prog.Pool.labels_play] at hlabel
  simp only [calls, Prog.Pool.start, List.map_map, List.getElem?_map, hcall, Option.map_some, Function.comp_apply,
    Option.some.injEq] at hlabel
  exact hlabel.symm

end CachedEmbeddings

/-- Cached calls return what the provider returns for the canonical text, failing ones leave the table alone, and no
text has two rows. -/
theorem embedding_cache_transparent (c : CachedEmbeddings) (hsha : Function.Injective c.sha256)
    (fates : ℕ → Fate EmbeddingError) (made : List EmbeddingCall) (schedule : List ℕ) :
    let after (is : List ℕ) : EmbeddingCalls := (c.calls fates made).play (Memo.exec c.memo) is
    (∀ i call vector, made[i]? = some call → CachedEmbeddings.IsOver (after schedule) i (.ok vector) →
      c.provider { call with text := canonicalise call.text } = .ok vector) ∧
    (∀ is js i error, schedule = is ++ i :: js → CachedEmbeddings.IsOver (after schedule) i (.error error) →
      (after (is ++ [i])).state.table = (after is).state.table) ∧
    ∀ provider model text, ((after schedule).state.table.filter
      fun row => row.1 = (provider, model, c.sha256 (canonicalise text).toUTF8)).length ≤ 1 := by
  intro after
  have hstart := CachedEmbeddings.sound hsha fates made []
  refine ⟨fun i call vector hcall ⟨label, hover⟩ => ?_, fun is js i error heq ⟨label, hover⟩ => ?_, fun provider model text => ?_⟩
  · rw [← CachedEmbeddings.labelled hcall hover]
    rcases (CachedEmbeddings.sound hsha fates made schedule).ended hover with hanswer | ⟨error, herror, -⟩
    · exact hanswer
    · cases herror
  · subst heq
    have hturn : after (is ++ [i]) = (after is).turn (Memo.exec c.memo) i := Prog.Pool.play_append is [i]
    rw [hturn]
    exact hstart.failed (CachedEmbeddings.lawful hsha) hover
  · have hnodup := hstart.play_nodup (CachedEmbeddings.lawful hsha) (fun _ k v h => nodup_putIfAbsent h k v)
        List.nodup_nil schedule
    exact Memo.rows_of_key hnodup _

def spelled (text : String) : List F32 := text.toList.map fun ch => UInt32.ofNat ch.toNat

def spelling : CachedEmbeddings := ⟨fun call => .ok (spelled call.text), (·.data.toList)⟩

def threeCalls (schedule : List ℕ) : EmbeddingCalls :=
  (spelling.calls (fun n => if n = 5 then .failed (.storage .io) else .done)
    [⟨"local", "bge", "a  b"⟩, ⟨"local", "bge", " a b"⟩, ⟨"local", "bge", "a\tb"⟩]).play (Memo.exec spelling.memo) schedule

theorem embedding_cache_three_calls :
    spelling.provider ⟨"local", "bge", canonicalise "a\tb"⟩ = .ok (spelled "a b") ∧
    (threeCalls [0, 1, 0, 1, 0, 1]).state.table = (threeCalls [0, 1, 0, 1, 0]).state.table ∧
    ((threeCalls [0, 1, 0, 1, 0, 1, 2]).state.table.filter
      fun row => row.1 = ("local", "bge", spelling.sha256 (canonicalise "a b").toUTF8)).length ≤ 1 := by
  have hsha : Function.Injective spelling.sha256 := fun _ _ h => ByteArray.ext (Array.toList_inj.mp h)
  obtain ⟨hanswers, hfails, hrows⟩ := embedding_cache_transparent spelling hsha
    (fun n => if n = 5 then .failed (.storage .io) else .done)
    [⟨"local", "bge", "a  b"⟩, ⟨"local", "bge", " a b"⟩, ⟨"local", "bge", "a\tb"⟩] [0, 1, 0, 1, 0, 1, 2]
  refine ⟨?_, ?_, hrows "local" "bge" "a b"⟩
  · exact hanswers 2 ⟨"local", "bge", "a\tb"⟩ _ rfl ⟨_, rfl⟩
  · exact hfails [0, 1, 0, 1, 0] [2] 1 _ rfl ⟨_, rfl⟩

end CognitiveMemory
