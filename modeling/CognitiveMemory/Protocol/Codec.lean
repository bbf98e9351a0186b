import CognitiveMemory.Lib.Framing
import CognitiveMemory.Lib.JsonText
import CognitiveMemory.Protocol.Messages
import Mathlib.Tactic.NormNum

/-! `IpcCodec`: messages as length-prefixed frames of JSON. -/

namespace CognitiveMemory.Wire
open Framing

structure SerdeJson where
  toVec : Json → List UInt8
  fromSlice : List UInt8 → Option Json

/-- How many arrays and objects may stand in each other for the reader. -/
def recursionLimit : ℕ := 127

/-- What is written is read back up to the recursion limit. -/
def SerdeJson.RoundTrips (json : SerdeJson) : Prop :=
  ∀ j : Json, j.Within recursionLimit → json.fromSlice (json.toVec j) = some j

theorem SerdeJson.RoundTrips.read_written {json : SerdeJson} (h : json.RoundTrips) {α : Type} (c : Json.Codec α)
    (hdepth : c.depth ≤ recursionLimit) (a : α) : (json.fromSlice (json.toVec (c.ser a))).bind c.de = some a := by
  rw [h _ (c.within_of_le a hdepth), Option.bind_some, c.de_ser]

def SerdeJson.compact : SerdeJson := ⟨Json.toVec, Json.fromSlice⟩

theorem SerdeJson.compact_roundTrips : SerdeJson.compact.RoundTrips := fun _ hj => Json.fromSlice_toVec hj

def maxFrameLength : ℕ := 16 * 1024 * 1024

theorem maxFrameLength_lt : maxFrameLength < 2 ^ 32 := by
  norm_num [maxFrameLength]

namespace IpcCodec

def payload (json : SerdeJson) (item : IpcMessage) : List UInt8 := json.toVec (ipcMessage.codec.ser item)

def message? (json : SerdeJson) (payload : List UInt8) : Option IpcMessage :=
  (json.fromSlice payload).bind ipcMessage.codec.de

def decoder (json : SerdeJson) : Decoder (Option ℕ) UInt8 IpcMessage :=
  (lengthDelimited maxFrameLength).parse (message? json)

def encode (json : SerdeJson) (dst : List UInt8) (item : IpcMessage) : Option (List UInt8) :=
  if maxFrameLength < (payload json item).length then none else some (dst ++ frame (payload json item))

variable {json : SerdeJson}

theorem depth_le_limit : ipcMessage.codec.depth ≤ recursionLimit := by
  have hdepth : ipcMessage.codec.depth = 7 := by decide +kernel
  rw [hdepth]
  decide

theorem message_payload (h : json.RoundTrips) (item : IpcMessage) : message? json (payload json item) = some item :=
  h.read_written ipcMessage.codec depth_le_limit item

theorem encode_all {ms : List IpcMessage} (hfit : ∀ m ∈ ms, (payload json m).length ≤ maxFrameLength) (dst : List UInt8) :
    ms.foldlM (encode json) dst = some (dst ++ ((ms.map (payload json)).map frame).flatten) := by
  induction ms generalizing dst with
  | nil => simp
  | cons m ms ih =>
    have hm : encode json dst m = some (dst ++ frame (payload json m)) := if_neg (by have := hfit m List.mem_cons_self; omega)
    rw [List.foldlM_cons, hm, Option.bind_eq_bind, Option.bind_some, ih fun m' hm' => hfit m' (List.mem_cons_of_mem m hm')]
    simp

theorem resting_empty (json : SerdeJson) : (decoder json).Resting none [] := parse_resting_empty _ _

/-- What is encoded decodes to itself however it is cut, and no part of it fails or gives everything. -/
theorem round_trip (json : SerdeJson) (hjson : json.RoundTrips) (ms : List IpcMessage)
    (hfit : ∀ m ∈ ms, (payload json m).length ≤ maxFrameLength) :
    ∃ bytes, ms.foldlM (encode json) [] = some bytes ∧
      (∀ chunks : List (List UInt8), chunks.flatten = bytes → (decoder json).feed none [] chunks = ⟨ms, some (none, [])⟩) ∧
      ∀ chunks : List (List UInt8), chunks.flatten <+: bytes → chunks.flatten ≠ bytes →
        ∃ part left, (decoder json).feed none [] chunks = ⟨part, some left⟩ ∧ part <+: ms ∧ part ≠ ms := by
  have hall : List.Forall₂ (fun p m => message? json p = some m) (ms.map (payload json)) ms := by
    rw [List.forall₂_map_left_iff]
    exact List.forall₂_same.mpr fun m _ => message_payload hjson m
  have hdrain : (decoder json).drain none ((ms.map (payload json)).map frame).flatten = ⟨ms, some (none, [])⟩ :=
    drain_frames maxFrameLength_lt hall (List.forall_mem_map.mpr hfit)
  refine ⟨_, (encode_all hfit []).trans (by rw [List.nil_append]), ?_, ?_⟩
  · intro chunks hchunks
    rw [Decoder.feed_eq_drain (resting_empty json), List.nil_append, hchunks, hdrain]
  · rintro chunks ⟨q, hq⟩ hne
    have hrest : q ≠ [] := by
      rintro rfl
      exact hne (by rw [← hq, List.append_nil])
    rw [← hq] at hdrain
    rw [Decoder.feed_eq_drain (resting_empty json), List.nil_append]
    exact Decoder.drain_strict_part hdrain rfl hrest

def exchange : List IpcMessage :=
  [⟨1, .request (.memory (.search ⟨"alice", "tea", 10, false, true, 2, false⟩))⟩,
    ⟨1, .response ⟨true, some (.memorySearchResults ⟨[⟨"mem_1", "green tea", "semantic", "fact", half⟩], []⟩), none⟩⟩,
    ⟨0, .event (.currentState ⟨1, "2025-01-01"⟩)⟩, ⟨2, .request .unknownBucket⟩]

theorem exchange_fits : ∀ m ∈ exchange, (payload .compact m).length ≤ maxFrameLength := by decide +kernel

theorem round_trip_exchange : ∃ bytes, exchange.foldlM (encode .compact) [] = some bytes ∧
    (∀ chunks : List (List UInt8), chunks.flatten = bytes → (decoder .compact).feed none [] chunks =
      ⟨exchange, some (none, [])⟩) ∧
    ∀ chunks : List (List UInt8), chunks.flatten <+: bytes → chunks.flatten ≠ bytes →
      ∃ part left, (decoder .compact).feed none [] chunks = ⟨part, some left⟩ ∧ part <+: exchange ∧ part ≠ exchange :=
  round_trip .compact SerdeJson.compact_roundTrips exchange exchange_fits

end IpcCodec

end CognitiveMemory.Wire
