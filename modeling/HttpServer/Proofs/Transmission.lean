import HttpServer.Proofs.Streaming
import HttpServer.Proofs.Writes
import Mathlib.Logic.ExistsUnique
/-!
# The phase that failed locates the cut

What is on the wire of a response is the start of its head, or its head and the start of its body, and
the phase in which the sending failed tells which (`cutOff_transmit`). No two phases fit the same bytes
(`CutOff.eq_phaseAt`), so the bytes tell the phase as well.
-/
namespace HttpServer

open Bytes

variable {r : Response} {limits : ResponseLimits} {peer : Peer} {rounds : List Round}
  {wire bytes : Bytes} {file : OpenFile} {size : Nat} {phase : Option Phase} {e : IoError}
  {result : Except SendError Unit}

/-! ## The parts of a transmission -/

namespace Response

/-- If a write of the head fails, nothing else is sent. -/
theorem transmit_of_error (failed : (writeAll r.head peer).result = .error e) :
    r.transmit limits peer rounds = ⟨(writeAll r.head peer).wire, some (.error ⟨.header, e⟩)⟩ := by
  simp only [transmit, failed]

theorem transmit_owned (sent : (writeAll r.head peer).result = .ok ()) (body : r.body = .owned bytes) :
    r.transmit limits peer rounds =
      ⟨(writeAll r.head peer).wire ++ (writeAll bytes (writeAll r.head peer).peer).wire,
        some ((writeAll bytes (writeAll r.head peer).peer).result.mapError (⟨.body, ·⟩))⟩ := by
  simp only [transmit, sent, body]

theorem transmit_file (sent : (writeAll r.head peer).result = .ok ()) (body : r.body = .file file size) :
    r.transmit limits peer rounds =
      ⟨(writeAll r.head peer).wire ++ (Streaming.run file size limits.fileChunk rounds).wire,
        (Streaming.run file size limits.fileChunk rounds).result.map (·.mapError (⟨.file, ·⟩))⟩ := by
  simp only [transmit, sent, body]

/-! ## The phase and the cut -/

/-- The phase that failed tells where the response was cut off. -/
theorem cutOff_transmit (h : (r.transmit limits peer rounds).result = some result) :
    r.CutOff (r.transmit limits peer rounds).wire (failedPhase result) := by
  rcases writeAll_cases r.head peer with ⟨sent, whole⟩ | ⟨e, failed, part⟩
  · cases body : r.body with
    | owned bytes =>
      rw [transmit_owned sent body] at h ⊢
      obtain rfl := Option.some.inj h
      rw [whole]
      have start := wire_writeAll_isPrefix bytes (writeAll r.head peer).peer
      rcases writeAll_cases bytes (writeAll r.head peer).peer with ⟨ok, all⟩ | ⟨e, failed, part⟩
      · rw [ok, all]
        exact ⟨by rw [body, Body.bytes], by rw [body]; rfl⟩
      · rw [failed]
        refine ⟨bytes, body, ?_, _, rfl, start, part⟩
        rintro rfl
        exact part (List.prefix_nil.1 start)
    | file file size =>
      rw [transmit_file sent body] at h ⊢
      have sound := Streaming.sound_run file size limits.fileChunk rounds
      obtain ⟨ended, how, rfl⟩ := Option.map_eq_some_iff.1 h
      rw [whole]
      cases ended with
      | ok =>
        obtain ⟨all, enough⟩ := sound.wire_of_ok how
        exact ⟨by rw [all, body, Body.bytes], by rw [body, Body.bytes, Body.length, ← all, enough]⟩
      | error e =>
        exact ⟨file, size, body, _, rfl, sound.wire_of_ne (by simp [how])⟩
  · rw [transmit_of_error failed] at h ⊢
    obtain rfl := Option.some.inj h
    exact ⟨wire_writeAll_isPrefix r.head peer, part⟩

/-- The phase that bytes on the wire speak of. -/
def phaseAt (r : Response) (wire : Bytes) : Option Phase :=
  if wire.length < r.head.length then some .header
  else if wire = r.head ++ r.body.bytes ∧ r.body.bytes.length = r.body.length then none
  else if r.body.isFile then some .file
  else some .body

/-- The bytes on the wire tell the phase. -/
theorem CutOff.eq_phaseAt (h : r.CutOff wire phase) : phase = r.phaseAt wire := by
  unfold phaseAt
  rcases phase with _ | _ | _ | _
  case none =>
    obtain ⟨whole, enough⟩ := h
    rw [if_neg (by simp [whole]), if_pos ⟨whole, enough⟩]
  case some.header =>
    obtain ⟨start, part⟩ := h
    have short : wire.length < r.head.length :=
      Nat.lt_of_le_of_ne start.length_le fun same => part (start.eq_of_length same)
    rw [if_pos short]
  case some.body =>
    obtain ⟨bytes, body, -, sent, behind, -, part⟩ := h
    rw [if_neg (by simp [behind]), if_neg, if_neg (by simp [body, Body.isFile])]
    rintro ⟨whole, -⟩
    rw [behind, body] at whole
    exact part (List.append_cancel_left whole)
  case some.file =>
    obtain ⟨file, size, body, sent, behind, -, short⟩ := h
    rw [if_neg (by simp [behind]), if_neg, if_pos (by simp [body, Body.isFile])]
    rintro ⟨whole, enough⟩
    rw [behind] at whole
    rw [List.append_cancel_left whole, enough, body] at short
    exact Nat.lt_irrefl _ short

/-- A response at its end is cut off in the phase that failed, and in no other. -/
theorem failedPhase_eq_iff (h : (r.transmit limits peer rounds).result = some result)
    (phase : Option Phase) :
    failedPhase result = phase ↔ r.CutOff (r.transmit limits peer rounds).wire phase := by
  have cut := cutOff_transmit h
  constructor
  · rintro rfl
    exact cut
  · intro other
    exact cut.eq_phaseAt.trans other.eq_phaseAt.symm

/-! ## The body is behind the head -/

/-- What is sent behind the writes of the head is a start of the body, and nothing unless the head is
whole. -/
theorem wire_transmit (r : Response) (limits : ResponseLimits) (peer : Peer) (rounds : List Round) :
    ∃ sent, (r.transmit limits peer rounds).wire = (writeAll r.head peer).wire ++ sent ∧
      sent <+: r.body.bytes ∧ (sent ≠ [] → (writeAll r.head peer).wire = r.head) := by
  rcases writeAll_cases r.head peer with ⟨sent, whole⟩ | ⟨e, failed, -⟩
  · cases body : r.body with
    | owned bytes =>
      rw [transmit_owned sent body]
      exact ⟨_, rfl, wire_writeAll_isPrefix bytes _, fun _ => whole⟩
    | file file size =>
      rw [transmit_file sent body]
      have sound := Streaming.sound_run file size limits.fileChunk rounds
      refine ⟨_, rfl, ?_, fun _ => whole⟩
      rw [sound.wire_eq]
      exact List.take_prefix_take_left sound.sent_le_size
  · rw [transmit_of_error failed]
    exact ⟨[], (List.append_nil _).symm, List.nil_prefix, fun nonempty => absurd rfl nonempty⟩

/-! ## Counting -/

/-- What the loop that counts delivers is what is written. -/
theorem delivery_writeAll (data : Bytes) (peer : Peer) (before : Bytes) (phase : Phase) :
    (sendAll data.length peer).delivery before data phase =
      ⟨before ++ (writeAll data peer).wire, (writeAll data peer).peer,
        (writeAll data peer).result.mapError (⟨phase, ·⟩)⟩ := by
  have start := List.prefix_iff_eq_take.1 (wire_writeAll_isPrefix data peer)
  rw [sendAll_eq_writeAll, Transfer.delivery]
  simp only [Writing.transfer, ← start]

/-- Sending with counts delivers the same, if the turns of the file are those of the answers that are
left when the head is written. -/
theorem transmit_scripted (r : Response) {limits : ResponseLimits}
    (word : limits.fileChunk < Decimal.wordLimit) (outcomes : List WriteOutcome) :
    ∃ rest, (writeAll r.head (.scripted outcomes)).peer = .scripted rest ∧
      let t := r.transmit limits (.scripted outcomes) (Round.script r.body.length rest)
      let d := r.send limits (.scripted outcomes)
      t.wire = d.wire ∧ t.result = some d.result := by
  obtain ⟨rest, left⟩ := (followsScript_sendAll r.head.length).scripted outcomes
  have counted : sendAll r.head.length (.scripted outcomes) =
      (writeAll r.head (.scripted outcomes)).transfer := sendAll_eq_writeAll _ _
  have left : (writeAll r.head (.scripted outcomes)).peer = .scripted rest := by
    rw [← left, Transfer.writes, counted]
    rfl
  have result : (sendAll r.head.length (.scripted outcomes)).result =
      (writeAll r.head (.scripted outcomes)).result := by
    rw [counted]
    rfl
  refine ⟨rest, left, ?_⟩
  rcases writeAll_cases r.head (.scripted outcomes) with ⟨sent, whole⟩ | ⟨e, failed, -⟩
  · have peer : (sendAll r.head.length (.scripted outcomes)).peer = .scripted rest := by
      rw [counted, ← left]
      rfl
    cases body : r.body with
    | owned bytes =>
      have delivered : r.send limits (.scripted outcomes) =
          (sendAll bytes.length (.scripted rest)).delivery r.head bytes .body := by
        simp only [send, result, sent, body, peer]
      rw [transmit_owned sent body, delivered, delivery_writeAll, whole, left]
      exact ⟨rfl, rfl⟩
    | file file size =>
      have delivered : r.send limits (.scripted outcomes) =
          (sendFile file size limits.fileChunk (.scripted rest)).delivery r.head file.content .file := by
        simp only [send, result, sent, body, peer]
      obtain ⟨same, counts⟩ := Streaming.run_script file size word rest
      have sound := Streaming.sound_run file size limits.fileChunk (Round.script size rest)
      rw [transmit_file sent body, delivered, whole, Body.length, Transfer.delivery, same, ← counts,
        sound.wire_eq]
      exact ⟨rfl, rfl⟩
  · have delivered : r.send limits (.scripted outcomes) =
        (sendAll r.head.length (.scripted outcomes)).delivery [] r.head .header := by
      simp only [send, result, failed]
    rw [transmit_of_error failed, delivered, delivery_writeAll, failed]
    exact ⟨rfl, rfl⟩

/-! ## All responses -/

/-- Whatever becomes of the writes and of the turns of a file, a response that is at its end is cut off
in the one phase that failed: it failed in its head exactly if a proper start of the head is on the
wire, in its body or its file exactly if the head is, and a start of the body that is too short, and it
did not fail exactly if all is on the wire that was announced. No other phase fits what is on the wire,
and nothing of the body is there unless the whole head is. The sending that counts delivers the same, so
that this is true of it as well. -/
theorem failedPhase_transmit_iff (r : Response) (limits : ResponseLimits) (peer : Peer)
    (rounds : List Round) :
    let t := r.transmit limits peer rounds
    (∀ result, t.result = some result →
      (∀ phase, failedPhase result = phase ↔ r.CutOff t.wire phase) ∧
        ∃! phase, r.CutOff t.wire phase) ∧
    (∃ sent, t.wire = (writeAll r.head peer).wire ++ sent ∧ sent <+: r.body.bytes ∧
      (sent ≠ [] → (writeAll r.head peer).wire = r.head)) ∧
    (limits.fileChunk < Decimal.wordLimit → ∀ outcomes,
      let d := r.send limits (.scripted outcomes)
      (∃ rest, (writeAll r.head (.scripted outcomes)).peer = .scripted rest ∧
        let t := r.transmit limits (.scripted outcomes) (Round.script r.body.length rest)
        t.wire = d.wire ∧ t.result = some d.result) ∧
      ∀ phase, failedPhase d.result = phase ↔ r.CutOff d.wire phase) := by
  intro t
  refine ⟨fun result ended => ⟨failedPhase_eq_iff ended, ?_⟩, wire_transmit r limits peer rounds, ?_⟩
  · refine ⟨failedPhase result, cutOff_transmit ended, fun phase other => ?_⟩
    exact ((failedPhase_eq_iff ended phase).2 other).symm
  · intro word outcomes d
    obtain ⟨rest, left, wire, ended⟩ := transmit_scripted r word outcomes
    refine ⟨⟨rest, left, wire, ended⟩, fun phase => ?_⟩
    rw [failedPhase_eq_iff ended phase, wire]

/-- The file is read up to its third byte, then there is no room in time; and a peer is gone before the
head is written. -/
theorem failedPhase_transmit_welcome :
    let r : Response := .ofFile ⟨ofString "welcome", 0, true⟩ 7 (ofString "text/html")
    let t := r.transmit {} .attentive [.moves 3, .stalls]
    let d := r.send {} .gone
    t.result = some (.error ⟨.file, .writeTimeout⟩) ∧ r.CutOff t.wire (some .file) ∧
    (∀ phase, r.CutOff t.wire phase → phase = some .file) ∧
    ∀ phase, failedPhase d.result = phase ↔ r.CutOff d.wire phase := by
  intro r t d
  have head : (writeAll r.head .attentive).result = .ok () := result_writeFrom_attentive r.head 0
  have ended : t.result = some (.error ⟨.file, .writeTimeout⟩) := by
    rw [show t = _ from transmit_file head rfl]
    rfl
  obtain ⟨phases, -, counted⟩ := failedPhase_transmit_iff r {} .attentive [.moves 3, .stalls]
  obtain ⟨located, -⟩ := phases _ ended
  obtain ⟨-, gone⟩ := counted (by decide) [.fails (.system .brokenPipe)]
  exact ⟨ended, (located _).1 rfl, fun phase h => ((located phase).2 h).symm, gone⟩

end Response
end HttpServer
