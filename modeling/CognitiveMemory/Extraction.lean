import CognitiveMemory.Lib.Memo
import Mathlib.Data.List.Infix

/-! The extraction cache of the llm crate: when its key tells requests apart, and what a run of cached
extractions returns. -/

namespace CognitiveMemory
open Memo

structure Turn where
  role : String
  content : String
  deriving DecidableEq, Repr

structure ExtractionRequest where
  transcript : List Turn
  apiKeyOverride : Option String
  deriving DecidableEq, Repr

structure ExtractedMemory where
  content : String
  category : String
  memoryType : String
  deriving DecidableEq, Repr

inductive LlmError
  | provider (message : String)
  | rateLimited (retryAfterSeconds : ℕ)
  | missingApiKey (provider : String)
  deriving DecidableEq, Repr

structure LlmProvider where
  name : String
  model : String
  extract : ExtractionRequest → Except LlmError (List ExtractedMemory)

def extractionPreimage (provider model : String) (transcript : List Turn) : ByteArray :=
  transcript.foldl (fun fed turn => fed ++ turn.role.toUTF8 ++ "\x01".toUTF8 ++ turn.content.toUTF8 ++ "\x02".toUTF8)
    (provider.toUTF8 ++ "\x00".toUTF8 ++ model.toUTF8 ++ "\x00".toUTF8)

def extractionCacheKey (sha256 : ByteArray → List UInt8) (provider model : String) (transcript : List Turn) : List UInt8 :=
  sha256 (extractionPreimage provider model transcript)

/-! ## The preimage as text -/

def turnsText : List Turn → List Char
  | [] => []
  | turn :: rest => turn.role.toList ++ '\x01' :: (turn.content.toList ++ '\x02' :: turnsText rest)

def preimageText (provider model : String) (transcript : List Turn) : List Char :=
  provider.toList ++ '\x00' :: (model.toList ++ '\x00' :: turnsText transcript)

theorem utf8_inj {s t : List Char} (h : (String.ofList s).toUTF8 = (String.ofList t).toUTF8) : s = t :=
  String.ofList_injective (String.toByteArray_inj.mp h)

theorem extractionPreimage_eq (provider model : String) (transcript : List Turn) :
    extractionPreimage provider model transcript = (String.ofList (preimageText provider model transcript)).toUTF8 := by
  have hfold (turns : List Turn) (fed : List Char) :
      turns.foldl (fun fed turn => fed ++ turn.role.toUTF8 ++ "\x01".toUTF8 ++ turn.content.toUTF8 ++ "\x02".toUTF8)
        (String.ofList fed).toUTF8 = (String.ofList (fed ++ turnsText turns)).toUTF8 := by
    induction turns generalizing fed with
    | nil => rw [turnsText, List.append_nil, List.foldl_nil]
    | cons turn rest ih =>
      have hone : (String.ofList fed).toUTF8 ++ turn.role.toUTF8 ++ "\x01".toUTF8 ++ turn.content.toUTF8 ++ "\x02".toUTF8 =
          (String.ofList (fed ++ (turn.role.toList ++ '\x01' :: (turn.content.toList ++ ['\x02'])))).toUTF8 := by
        simp only [String.toUTF8, ← String.toByteArray_append, String.toByteArray_inj]
        apply String.toList_injective
        simp
      rw [List.foldl_cons, hone, ih, turnsText]
      simp only [List.append_assoc, List.cons_append, List.nil_append]
  have hnames : provider.toUTF8 ++ "\x00".toUTF8 ++ model.toUTF8 ++ "\x00".toUTF8 =
      (String.ofList (provider.toList ++ '\x00' :: (model.toList ++ ['\x00']))).toUTF8 := by
    simp only [String.toUTF8, ← String.toByteArray_append, String.toByteArray_inj]
    apply String.toList_injective
    simp
  unfold extractionPreimage preimageText
  rw [hnames, hfold]
  simp only [List.append_assoc, List.cons_append, List.nil_append]

theorem extractionCacheKey_eq_iff {sha256 : ByteArray → List UInt8} (hsha : Function.Injective sha256)
    {p m p' m' : String} {t t' : List Turn} :
    extractionCacheKey sha256 p' m' t' = extractionCacheKey sha256 p m t ↔ preimageText p' m' t' = preimageText p m t := by
  unfold extractionCacheKey
  rw [extractionPreimage_eq, extractionPreimage_eq, hsha.eq_iff]
  constructor
  · exact utf8_inj
  · intro h
    rw [h]

/-! ## Fields and separators -/

/-- A text cut at a separator its first field does not hold: cut again at the same place, or further on. -/
theorem cut_cases {s : Char} {field rest field' rest' : List Char} (hs : s ∉ field)
    (h : field' ++ s :: rest' = field ++ s :: rest) :
    field' = field ∧ rest' = rest ∨ ∃ more, field' = field ++ s :: more ∧ rest = more ++ s :: rest' := by
  rcases List.append_eq_append_iff.mp h with ⟨more, hfield, hrest⟩ | ⟨more, hfield, hrest⟩
  · cases more with
    | nil =>
      rw [List.append_nil] at hfield
      exact .inl ⟨hfield.symm, (List.cons_eq_cons.mp hrest).2⟩
    | cons c more =>
      obtain ⟨rfl, -⟩ := List.cons_eq_cons.mp hrest
      exact absurd (hfield ▸ List.mem_append_right _ List.mem_cons_self) hs
  · cases more with
    | nil =>
      rw [List.append_nil] at hfield
      exact .inl ⟨hfield, (List.cons_eq_cons.mp hrest).2.symm⟩
    | cons c more =>
      obtain ⟨rfl, hmore⟩ := List.cons_eq_cons.mp hrest
      exact .inr ⟨more, hfield, hmore⟩

theorem cut_eq {s : Char} {field rest field' rest' : List Char} (hs : s ∉ field) (hs' : s ∉ field')
    (h : field' ++ s :: rest' = field ++ s :: rest) : field' = field ∧ rest' = rest := by
  rcases cut_cases hs h with heq | ⟨more, rfl, -⟩
  · exact heq
  · simp at hs'

/-- Requests whose fields do not hold the separators behind them. -/
structure Separated (p m : String) (t : List Turn) : Prop where
  provider : '\x00' ∉ p.toList
  model : '\x00' ∉ m.toList
  turns : ∀ turn ∈ t, '\x01' ∉ turn.role.toList ∧ '\x02' ∉ turn.content.toList

theorem turnsText_inj {t t' : List Turn} (ht : ∀ turn ∈ t, '\x01' ∉ turn.role.toList ∧ '\x02' ∉ turn.content.toList)
    (ht' : ∀ turn ∈ t', '\x01' ∉ turn.role.toList ∧ '\x02' ∉ turn.content.toList) (h : turnsText t' = turnsText t) :
    t' = t := by
  induction t generalizing t' with
  | nil =>
    cases t' with
    | nil => rfl
    | cons turn' rest' => simp [turnsText] at h
  | cons turn rest ih =>
    cases t' with
    | nil => simp [turnsText] at h
    | cons turn' rest' =>
      obtain ⟨⟨hrole, hcontent⟩, hrest⟩ := List.forall_mem_cons.mp ht
      obtain ⟨⟨hrole', hcontent'⟩, hrest'⟩ := List.forall_mem_cons.mp ht'
      obtain ⟨hr, hbehind⟩ := cut_eq hrole hrole' h
      obtain ⟨hc, hothers⟩ := cut_eq hcontent hcontent' hbehind
      rw [ih hrest hrest' hothers]
      congr 1
      cases turn
      cases turn'
      simp only [Turn.mk.injEq]
      exact ⟨String.toList_injective hr, String.toList_injective hc⟩

theorem preimageText_inj {p m p' m' : String} {t t' : List Turn} (h : Separated p m t) (h' : Separated p' m' t')
    (heq : preimageText p' m' t' = preimageText p m t) : p' = p ∧ m' = m ∧ t' = t := by
  obtain ⟨hp, hbehind⟩ := cut_eq h.provider h'.provider heq
  obtain ⟨hm, hturns⟩ := cut_eq h.model h'.model hbehind
  exact ⟨String.toList_injective hp, String.toList_injective hm, turnsText_inj h.turns h'.turns hturns⟩

/-! ## Inputs no other input shares its key with -/

/-- At most one turn, and no separator where the text could be cut again. -/
structure Unambiguous (p m : String) (t : List Turn) : Prop where
  provider : '\x00' ∉ p.toList
  model : '\x00' ∉ m.toList
  turns : t = [] ∨ ∃ turn, t = [turn] ∧ '\x00' ∉ turn.role.toList ∧ '\x01' ∉ turn.role.toList ∧ '\x01' ∉ turn.content.toList

theorem mark_mem_turnsText {t : List Turn} (ht : t ≠ []) : '\x01' ∈ turnsText t := by
  obtain ⟨turn, rest, rfl⟩ := List.exists_cons_of_ne_nil ht
  exact List.mem_append_right _ List.mem_cons_self

theorem no_turns_inside {turn : Turn} (hnul : '\x00' ∉ turn.role.toList) (hcontent : '\x01' ∉ turn.content.toList)
    {more : List Char} {t' : List Turn} : turnsText [turn] ≠ more ++ '\x00' :: turnsText t' := by
  intro h
  rcases List.append_eq_append_iff.mp h with ⟨inner, -, hrest⟩ | ⟨inner, hrole, hrest⟩
  · cases inner with
    | nil => simp at hrest
    | cons c inner =>
      obtain ⟨-, hrest⟩ := List.cons_eq_cons.mp hrest
      by_cases ht' : t' = []
      · subst ht'
        have hlast := congrArg List.getLast? hrest
        simp [turnsText] at hlast
      · have hmark : '\x01' ∈ turn.content.toList ++ ['\x02'] := by
          rw [show turn.content.toList ++ ['\x02'] = _ from hrest]
          exact List.mem_append_right _ (List.mem_cons_of_mem _ (mark_mem_turnsText ht'))
        rcases List.mem_append.mp hmark with hmem | hmem
        · exact hcontent hmem
        · simp at hmem
  · cases inner with
    | nil => simp at hrest
    | cons c inner =>
      obtain ⟨rfl, -⟩ := List.cons_eq_cons.mp hrest
      exact hnul (hrole ▸ List.mem_append_right _ List.mem_cons_self)

theorem turnsText_single {turn : Turn} (hrole : '\x01' ∉ turn.role.toList) (hcontent : '\x01' ∉ turn.content.toList)
    {t' : List Turn} (h : turnsText t' = turnsText [turn]) : t' = [turn] := by
  cases t' with
  | nil => simp [turnsText] at h
  | cons turn' rest =>
    rcases cut_cases hrole h with ⟨hr, hbehind⟩ | ⟨more, -, hmore⟩
    · have hend : rest = [] := by
        by_contra hne
        have hmark : '\x01' ∈ turn.content.toList ++ ['\x02'] := by
          rw [show turn.content.toList ++ ['\x02'] = _ from hbehind.symm]
          exact List.mem_append_right _ (List.mem_cons_of_mem _ (mark_mem_turnsText hne))
        rcases List.mem_append.mp hmark with hmem | hmem
        · exact hcontent hmem
        · simp at hmem
      subst hend
      have hc : turn'.content.toList = turn.content.toList := List.append_cancel_right hbehind
      congr 1
      cases turn
      cases turn'
      simp only [Turn.mk.injEq]
      exact ⟨String.toList_injective hr, String.toList_injective hc⟩
    · have hmark : '\x01' ∈ turn.content.toList ++ ['\x02'] := by
        rw [show turn.content.toList ++ ['\x02'] = _ from hmore]
        exact List.mem_append_right _ List.mem_cons_self
      rcases List.mem_append.mp hmark with hmem | hmem
      · exact absurd hmem hcontent
      · simp at hmem

theorem Unambiguous.turns_eq {p m : String} {t : List Turn} (h : Unambiguous p m t) {t' : List Turn}
    (heq : turnsText t' = turnsText t) : t' = t := by
  rcases h.turns with rfl | ⟨turn, rfl, -, hrole, hcontent⟩
  · by_contra hne
    have hmark := mark_mem_turnsText hne
    rw [heq] at hmark
    exact absurd hmark List.not_mem_nil
  · exact turnsText_single hrole hcontent heq

theorem Unambiguous.inside {p m : String} {t : List Turn} (h : Unambiguous p m t) {more : List Char} {t' : List Turn} :
    turnsText t ≠ more ++ '\x00' :: turnsText t' := by
  rcases h.turns with rfl | ⟨turn, rfl, hnul, -, hcontent⟩
  · simp [turnsText]
  · exact no_turns_inside hnul hcontent

theorem Unambiguous.unique {p m p' m' : String} {t t' : List Turn} (h : Unambiguous p m t)
    (heq : preimageText p' m' t' = preimageText p m t) : p' = p ∧ m' = m ∧ t' = t := by
  rcases cut_cases h.provider heq with ⟨hp, hbehind⟩ | ⟨more, -, hmore⟩
  · rcases cut_cases h.model hbehind with ⟨hm, hturns⟩ | ⟨more, -, hmore⟩
    · exact ⟨String.toList_injective hp, String.toList_injective hm, h.turns_eq hturns⟩
    · exact absurd hmore h.inside
  · -- The provider of the other input holds the first NUL, so its model ends further on.
    rcases cut_cases h.model hmore.symm with ⟨-, hturns⟩ | ⟨more', -, hmore'⟩
    · exact absurd hturns.symm h.inside
    · have hturns : turnsText t = (more' ++ '\x00' :: m'.toList) ++ '\x00' :: turnsText t' := by
        rw [hmore', List.append_assoc, List.cons_append]
      exact absurd hturns h.inside

theorem prefix_ne {c : Char} {a b : List Char} : String.ofList a ≠ String.ofList (a ++ c :: b) := by
  intro h
  simpa using congrArg List.length (String.ofList_injective h)

theorem suffix_ne {c : Char} {a b : List Char} : String.ofList b ≠ String.ofList (a ++ c :: b) := by
  intro h
  have hlen := congrArg List.length (String.ofList_injective h)
  simp only [List.length_append, List.length_cons] at hlen
  omega

theorem unambiguous_of_unique {p m : String} {t : List Turn}
    (h : ∀ p' m' t', preimageText p' m' t' = preimageText p m t → p' = p ∧ m' = m ∧ t' = t) : Unambiguous p m t := by
  have split {c : Char} {s : String} (hc : c ∈ s.toList) : ∃ a b : List Char, s = String.ofList (a ++ c :: b) := by
    obtain ⟨a, b, hab⟩ := List.append_of_mem hc
    exact ⟨a, b, by rw [← hab, String.ofList_toList]⟩
  refine ⟨fun hnul => ?_, fun hnul => ?_, ?_⟩
  · obtain ⟨a, b, rfl⟩ := split hnul
    obtain ⟨hp, -⟩ := h (String.ofList a) (String.ofList (b ++ '\x00' :: m.toList)) t (by simp [preimageText])
    exact prefix_ne hp
  · obtain ⟨a, b, rfl⟩ := split hnul
    obtain ⟨-, hm, -⟩ := h (String.ofList (p.toList ++ '\x00' :: a)) (String.ofList b) t (by simp [preimageText])
    exact suffix_ne hm
  · match t with
    | [] => exact .inl rfl
    | [⟨role, content⟩] =>
      refine .inr ⟨⟨role, content⟩, rfl, fun hnul => ?_, fun hmark => ?_, fun hmark => ?_⟩
      · obtain ⟨a, b, rfl⟩ := split hnul
        obtain ⟨-, -, ht⟩ := h (String.ofList (p.toList ++ '\x00' :: m.toList)) (String.ofList a)
          [⟨String.ofList b, content⟩] (by simp [preimageText, turnsText])
        simp only [List.cons.injEq, Turn.mk.injEq] at ht
        exact suffix_ne ht.1.1
      · obtain ⟨a, b, rfl⟩ := split hmark
        obtain ⟨-, -, ht⟩ := h p m [⟨String.ofList a, String.ofList (b ++ '\x01' :: content.toList)⟩]
          (by simp [preimageText, turnsText])
        simp only [List.cons.injEq, Turn.mk.injEq] at ht
        exact prefix_ne ht.1.1
      · obtain ⟨a, b, rfl⟩ := split hmark
        obtain ⟨-, -, ht⟩ := h p m [⟨String.ofList (role.toList ++ '\x01' :: a), String.ofList b⟩]
          (by simp [preimageText, turnsText])
        simp only [List.cons.injEq, Turn.mk.injEq] at ht
        exact suffix_ne ht.1.2
    | turn :: turn' :: rest =>
      let merged : Turn :=
        ⟨turn.role, String.ofList (turn.content.toList ++ '\x02' :: (turn'.role.toList ++ '\x01' :: turn'.content.toList))⟩
      obtain ⟨-, -, ht⟩ := h p m (merged :: rest) (by simp [preimageText, turnsText, merged])
      simpa using congrArg List.length ht

/-! ## Cached extraction -/

/-- `CachedExtractor` with the cache's table as a parameter of its runs: `get` misses and `insert` drops behind a
poisoned lock. -/
structure CachedExtractor where
  provider : LlmProvider
  sha256 : ByteArray → List UInt8

abbrev ExtractM (α : Type) := CallM ExtractionRequest (List UInt8) (List ExtractedMemory) (List ExtractedMemory) LlmError α

def CachedExtractor.extract (e : CachedExtractor) (req : ExtractionRequest) : ExtractM (List ExtractedMemory) := do
  let key := extractionCacheKey e.sha256 e.provider.name e.provider.model req.transcript
  let cached ← lookup key
  match cached with
  | some cached => pure cached
  | none => do
    let result ← compute req
    store key result
    pure result

def CachedExtractor.memo (e : CachedExtractor) :
    Spec ExtractionRequest (List UInt8) (List ExtractedMemory) (List ExtractedMemory) LlmError where
  key req := extractionCacheKey e.sha256 e.provider.name e.provider.model req.transcript
  answer := e.provider.extract
  encode := id
  decode := id
  put := putOver

theorem CachedExtractor.call_eq (e : CachedExtractor) (req : ExtractionRequest) : e.memo.call req = e.extract req := by
  unfold CachedExtractor.extract Spec.call
  congr 1
  funext found
  cases found <;> rfl

def CachedExtractor.calls (e : CachedExtractor) (fates : ℕ → Fate LlmError) (reqs : List ExtractionRequest) :
    Spec.Calls ExtractionRequest (List UInt8) (List ExtractedMemory) (List ExtractedMemory) LlmError :=
  Prog.Pool.start ⟨[], fates⟩ (reqs.map fun req => (req, e.extract req))

/-- Separators stay out of the fields before them, and a transcript always comes with the same override. -/
structure Distinguished (reqs : List ExtractionRequest) : Prop where
  turns : ∀ req ∈ reqs, ∀ turn ∈ req.transcript, '\x01' ∉ turn.role.toList ∧ '\x02' ∉ turn.content.toList
  overrides : ∀ req ∈ reqs, ∀ req' ∈ reqs, req.transcript = req'.transcript → req.apiKeyOverride = req'.apiKeyOverride

theorem Distinguished.lawful {reqs : List ExtractionRequest} (h : Distinguished reqs) (e : CachedExtractor)
    (hsha : Function.Injective e.sha256) : e.memo.Lawful (· ∈ reqs) where
  decode_encode := fun _ _ _ _ => rfl
  agree := by
    intro req req' hreq hreq' hkey
    have htext := (extractionCacheKey_eq_iff hsha).mp hkey
    have hturns : turnsText req.transcript = turnsText req'.transcript := by
      have hmodel := List.tail_eq_of_cons_eq (List.append_cancel_left htext)
      exact List.tail_eq_of_cons_eq (List.append_cancel_left hmodel)
    have htranscript : req.transcript = req'.transcript := turnsText_inj (h.turns req' hreq') (h.turns req hreq) hturns
    have hsame : req = req' := by
      cases req
      cases req'
      simp only [ExtractionRequest.mk.injEq]
      exact ⟨htranscript, h.overrides _ hreq _ hreq' htranscript⟩
    rw [hsame]
  puts := puts_putOver

theorem Distinguished.sound {reqs : List ExtractionRequest} (h : Distinguished reqs) (e : CachedExtractor)
    (hsha : Function.Injective e.sha256) {fates : ℕ → Fate LlmError} (hfates : ∀ n err, fates n ≠ .failed err)
    (schedule : List ℕ) :
    Spec.Sound e.memo (· ∈ reqs) (fun _ => False) ((e.calls fates reqs).play (Memo.exec e.memo) schedule) := by
  have hstart : Spec.Sound e.memo (· ∈ reqs) (fun _ => False) (e.memo.calls fates reqs) :=
    Spec.sound_calls (fun n err hfailed => hfates n err hfailed) fun _ hreq => hreq
  have hsame : e.memo.calls fates reqs = e.calls fates reqs := by
    unfold Spec.calls CachedExtractor.calls
    simp only [e.call_eq]
  rw [← hsame]
  exact hstart.play (h.lawful e hsha) schedule

/-- An input is the only one of its key just if it cannot be cut another way. No two inputs that keep the separators
out of the fields before them share a key, and cached extractions of such transcripts, interleaved in any way, end as the
provider's own do. -/
theorem extraction_cache_iff {sha256 : ByteArray → List UInt8} (hsha : Function.Injective sha256) :
    (∀ p m t, (∀ p' m' t', extractionCacheKey sha256 p' m' t' = extractionCacheKey sha256 p m t →
      p' = p ∧ m' = m ∧ t' = t) ↔ Unambiguous p m t) ∧
    (∀ p m t p' m' t', Separated p m t → Separated p' m' t' →
      extractionCacheKey sha256 p' m' t' = extractionCacheKey sha256 p m t → p' = p ∧ m' = m ∧ t' = t) ∧
    (∀ (provider : LlmProvider) (reqs : List ExtractionRequest) (fates : ℕ → Fate LlmError) (schedule : List ℕ),
      (∀ n err, fates n ≠ .failed err) → Distinguished reqs →
      let e : CachedExtractor := ⟨provider, sha256⟩
      ∀ i req result, Spec.Ended ((e.calls fates reqs).play (Memo.exec e.memo) schedule) i req result →
        provider.extract req = result) := by
  refine ⟨fun p m t => ⟨fun h => ?_, fun h p' m' t' heq => ?_⟩, ?_, ?_⟩
  · exact unambiguous_of_unique fun p' m' t' htext => h p' m' t' ((extractionCacheKey_eq_iff hsha).mpr htext)
  · exact h.unique ((extractionCacheKey_eq_iff hsha).mp heq)
  · intro p m t p' m' t' h h' heq
    exact preimageText_inj h h' ((extractionCacheKey_eq_iff hsha).mp heq)
  · intro provider reqs fates schedule hfates hreqs e i req result hend
    rcases (hreqs.sound e hsha hfates schedule).ended hend with hsame | ⟨_, -, hfault⟩
    · exact hsame
    · exact hfault.elim

theorem bytes_injective : Function.Injective fun bytes : ByteArray => bytes.data.toList := by
  intro a b h
  exact ByteArray.ext (Array.toList_inj.mp h)

theorem extraction_cache_one_turn :
    extractionCacheKey (·.data.toList) "openai" "gpt-4o-mini" [⟨"user", "I like tea"⟩, ⟨"user", "and milk"⟩] ≠
      extractionCacheKey (·.data.toList) "openai" "gpt-4o-mini" [⟨"user", "I like tea"⟩] := by
  intro hkey
  have hunique := ((extraction_cache_iff bytes_injective).1 "openai" "gpt-4o-mini" [⟨"user", "I like tea"⟩]).mpr
    ⟨by decide, by decide, .inr ⟨_, rfl, by decide, by decide, by decide⟩⟩
  exact absurd (hunique _ _ _ hkey).2.2 (by decide)

/-- One turn that quotes the separators, against the two turns it spells. -/
theorem two_turns_or_one : ¬ ∀ sha256 : ByteArray → List UInt8, Function.Injective sha256 → ∀ p m t p' m' t',
    extractionCacheKey sha256 p m t = extractionCacheKey sha256 p' m' t' → p = p' ∧ m = m' ∧ t = t' := by
  intro hall
  have hkey : extractionCacheKey (·.data.toList) "openai" "gpt-4o-mini" [⟨"user", "tea\x02user\x01milk"⟩] =
      extractionCacheKey (·.data.toList) "openai" "gpt-4o-mini" [⟨"user", "tea"⟩, ⟨"user", "milk"⟩] :=
    (extractionCacheKey_eq_iff bytes_injective).mpr (by decide)
  exact absurd (hall _ bytes_injective _ _ _ _ _ _ hkey).2.2 (by decide)

end CognitiveMemory
