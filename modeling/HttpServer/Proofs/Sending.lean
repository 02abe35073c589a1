import HttpServer.Sending
/-!
# What a successful sending has sent

Sending succeeds exactly when all bytes are accepted (`result_offerRest_eq_ok_iff` and the same for
files), so a response that is sent without a failure is on the wire as a whole (`wire_of_send_ok`).
To a peer that accepts everything no write fails.
-/
namespace HttpServer

variable {size sent chunk available : Nat} {readable : Bool} {peer : Peer} {offered : Array Nat}

/-! ## Bytes -/

/-- No more is accepted than there is, and success means that all is accepted. -/
theorem result_offerRest_eq_ok_iff (le : sent ≤ size) :
    (offerRest size peer sent offered).sent ≤ size ∧
      ((offerRest size peer sent offered).result = .ok () ↔
        (offerRest size peer sent offered).sent = size) := by
  fun_induction offerRest size peer sent offered with
  | case1 peer sent offered more left next h => exact ⟨le, by simp; omega⟩
  | case2 peer sent offered more left next k h ih =>
    have := Peer.le_of_offer h
    exact ih (by omega)
  | case3 peer sent offered more left next e h again ih => exact ih le
  | case4 peer sent offered more left next e h final => exact ⟨le, by simp; omega⟩
  | case5 peer sent offered more left next h => exact ⟨le, by simp; omega⟩
  | case6 peer sent offered done => exact ⟨le, by simp; omega⟩

theorem sent_of_sendAll_ok (h : (sendAll size peer).result = .ok ()) : (sendAll size peer).sent = size :=
  (result_offerRest_eq_ok_iff (Nat.zero_le size)).2.1 h

/-- A peer that accepts everything stays so. -/
theorem offer_attentive (n : Nat) : Peer.attentive.offer n = (.accepts n, .attentive) := rfl

theorem offerRest_attentive (size sent : Nat) (offered : Array Nat) :
    (offerRest size .attentive sent offered).result = .ok () ∧
      (offerRest size .attentive sent offered).peer = .attentive := by
  by_cases more : sent < size
  · obtain ⟨k, hk⟩ : ∃ k, size - sent = k + 1 := ⟨size - sent - 1, by omega⟩
    have all : Peer.attentive.offer (size - sent) = (.accepts (k + 1), .attentive) := by
      rw [hk]; rfl
    rw [offerRest, if_pos more]
    simp only
    split
    · rename_i next refused
      rw [all] at refused
      cases refused
    · rename_i j next accepted
      rw [all] at accepted
      cases accepted
      rw [offerRest, if_neg (by omega)]
      exact ⟨rfl, rfl⟩
    · rename_i e next fails
      rw [all] at fails
      cases fails
    · rename_i next stalls
      rw [all] at stalls
      cases stalls
  · rw [offerRest, if_neg more]
    exact ⟨rfl, rfl⟩

theorem sendAll_attentive (size : Nat) :
    (sendAll size .attentive).result = .ok () ∧ (sendAll size .attentive).peer = .attentive :=
  offerRest_attentive size 0 #[]

/-! ## Files -/

/-- No more of a file is accepted than announced, and success means that so much is accepted. -/
theorem result_offerFile_eq_ok_iff (le : sent ≤ size) :
    (offerFile readable available size chunk peer sent offered).sent ≤ size ∧
      ((offerFile readable available size chunk peer sent offered).result = .ok () ↔
        (offerFile readable available size chunk peer sent offered).sent = size) := by
  fun_induction offerFile readable available size chunk peer sent offered with
  | case1 peer sent offered more count k next h unreadable => exact ⟨le, by simp; omega⟩
  | case2 peer sent offered more count k next h unreadable progress ih =>
    have := Peer.le_of_offer h
    exact ih (by omega)
  | case3 peer sent offered more count k next h unreadable ended => exact ⟨le, by simp; omega⟩
  | case4 peer sent offered more count next e h again ih => exact ih le
  | case5 peer sent offered more count next e h final => exact ⟨le, by simp; omega⟩
  | case6 peer sent offered more count next h => exact ⟨le, by simp; omega⟩
  | case7 peer sent offered done => exact ⟨le, by simp; omega⟩

/-- A readable file that holds as much as announced is sent to a peer that accepts everything. -/
theorem offerFile_attentive (enough : size ≤ available) (chunk sent : Nat) (offered : Array Nat) :
    (offerFile true available size chunk .attentive sent offered).result = .ok () ∧
      (offerFile true available size chunk .attentive sent offered).peer = .attentive := by
  by_cases more : sent < size
  · rw [offerFile, if_pos more]
    simp only [Bool.not_true, Bool.false_eq_true, if_false]
    split
    · rename_i k next all
      rw [offer_attentive] at all
      cases all
      rw [if_pos (by omega)]
      exact offerFile_attentive enough chunk _ _
    · rename_i e next fails
      rw [offer_attentive] at fails
      cases fails
    · rename_i next stalls
      rw [offer_attentive] at stalls
      cases stalls
  · rw [offerFile, if_neg more]
    exact ⟨rfl, rfl⟩
termination_by size - sent
decreasing_by omega

/-! ## Responses -/

theorem Transfer.result_delivery_eq_ok_iff {t : Transfer} {before bytes : Bytes} {phase : Phase} :
    (t.delivery before bytes phase).result = .ok () ↔ t.result = .ok () := by
  unfold delivery
  cases t.result with
  | error e => exact iff_of_false (fun h => by cases h) (fun h => by cases h)
  | ok => exact ⟨fun _ => rfl, fun _ => rfl⟩

/-- A response that is sent without a failure is sent as a whole. -/
theorem Response.wire_of_send_ok {r : Response} {limits : ResponseLimits}
    (h : (r.send limits peer).result = .ok ()) : (r.send limits peer).wire = r.bytes := by
  unfold send at h ⊢
  simp only at h ⊢
  split at h
  · rename_i e failed
    rw [Transfer.result_delivery_eq_ok_iff, failed] at h
    cases h
  · unfold Response.bytes
    cases body : r.body with
    | owned bytes =>
      simp only [body] at h ⊢
      have ok := Transfer.result_delivery_eq_ok_iff.1 h
      rw [Transfer.delivery, sent_of_sendAll_ok ok, List.take_length, Body.bytes]
    | file file size =>
      simp only [body] at h ⊢
      have ok := Transfer.result_delivery_eq_ok_iff.1 h
      have all := (result_offerFile_eq_ok_iff (Nat.zero_le size)).2.1 ok
      rw [Transfer.delivery, sendFile, all, Body.bytes]

/-- However the sending of a response ends, what was accepted is the start of it. -/
theorem Response.wire_send_prefix (r : Response) (limits : ResponseLimits) (peer : Peer) :
    (r.send limits peer).wire <+: r.bytes := by
  unfold send Response.bytes
  simp only
  cases (sendAll r.head.length peer).result with
  | error e => exact (List.take_prefix _ _).trans (List.prefix_append _ _)
  | ok =>
    cases r.body with
    | owned bytes =>
      exact (List.prefix_append_right_inj r.head).2 (List.take_prefix _ _)
    | file file size =>
      exact (List.prefix_append_right_inj r.head).2
        (List.take_prefix_take_left (result_offerFile_eq_ok_iff (Nat.zero_le size)).1)

/-- The file of a body can be read as far as announced. -/
def Body.IsSendable : Body → Prop
  | owned _ => True
  | file f size => f.readable = true ∧ size ≤ f.content.length

theorem Response.send_attentive {r : Response} (h : r.body.IsSendable) (limits : ResponseLimits) :
    (r.send limits .attentive).result = .ok () ∧ (r.send limits .attentive).peer = .attentive := by
  obtain ⟨head, peer⟩ := sendAll_attentive r.head.length
  unfold send
  simp only [head, peer]
  cases body : r.body with
  | owned bytes =>
    obtain ⟨ok, peer⟩ := sendAll_attentive bytes.length
    exact ⟨Transfer.result_delivery_eq_ok_iff.2 ok, peer⟩
  | file f size =>
    rw [body] at h
    obtain ⟨readable, enough⟩ := h
    obtain ⟨ok, peer⟩ := offerFile_attentive enough limits.fileChunk 0 #[]
    rw [← readable] at ok peer
    exact ⟨Transfer.result_delivery_eq_ok_iff.2 ok, peer⟩

end HttpServer
