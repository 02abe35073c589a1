import HttpServer.IoError
/-!
# Peers

Writing to a connection depends on the client at its other side, the peer: it may accept a part of
what it is offered, fail, or never answer. A peer is known by how it answers one offer after
another.
-/
namespace HttpServer

inductive WriteOutcome where
  /-- At most `n` bytes are accepted. -/
  | accepts (n : Nat)
  | fails (e : IoError)
  | stalls
  deriving DecidableEq

/-- The other side of a connection, as writing sees it. -/
inductive Peer where
  /-- The peer answers as listed, and accepts everything after that. -/
  | scripted (outcomes : List WriteOutcome)
  /-- The peer does not read: `room` bytes fit into the buffers between, then writing stalls. -/
  | stalled (room : Nat)
  deriving DecidableEq

namespace Peer

/-- A peer that accepts everything. -/
def attentive : Peer := scripted []

/-- A peer to which nothing can be written any more. -/
def gone : Peer := scripted [.fails (.system .brokenPipe)]

def listed : Peer → Nat
  | scripted outcomes => outcomes.length
  | stalled _ => 0

/-- The answer to an offer of `n` bytes, with no more than `n` accepted, and the peer afterwards. -/
def offer (p : Peer) (n : Nat) : WriteOutcome × Peer :=
  match p with
  | scripted [] => (.accepts n, p)
  | scripted (.accepts k :: rest) => (.accepts (min k n), scripted rest)
  | scripted (outcome :: rest) => (outcome, scripted rest)
  | stalled room =>
    if room = 0 then (.stalls, p) else (.accepts (min room n), stalled (room - min room n))

theorem listed_le_of_offer {p q : Peer} {n : Nat} {outcome : WriteOutcome}
    (h : p.offer n = (outcome, q)) : q.listed ≤ p.listed := by
  have : q = (p.offer n).2 := by rw [h]
  subst this
  unfold offer
  split
  · exact Nat.le_refl _
  · exact Nat.le_succ _
  · exact Nat.le_succ _
  · split <;> exact Nat.le_refl _

/-- Only a listed answer is a failure, so a failure shortens the list. -/
theorem listed_lt_of_offer {p q : Peer} {n : Nat} {e : IoError} (h : p.offer n = (.fails e, q)) :
    q.listed < p.listed := by
  unfold offer at h
  split at h <;> try simp_all [listed]
  · obtain ⟨-, rfl⟩ := h; simp
  · split at h <;> simp at h

theorem le_of_offer {p q : Peer} {n k : Nat} (h : p.offer n = (.accepts k, q)) : k ≤ n := by
  unfold offer at h
  split at h
  · simp at h; omega
  · simp at h; omega
  · rename_i no
    simp only [Prod.mk.injEq] at h
    exact absurd h.1 (no k)
  · split at h <;> simp at h; omega

end Peer
end HttpServer
