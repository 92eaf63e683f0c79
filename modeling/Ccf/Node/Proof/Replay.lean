import Ccf.Node.NodeToNode

/-!
# One key, two counters, and no replay check

The two channels of a pair of nodes hold the same key: each is the secret of the same
two shares (`Key.ofShares_comm`). Each channel numbers its frames from 0 on its own, and
the IV of a frame is that number and nothing else (`Channel.tag_iv`). So the first
frame either node sends after the key exchange is tagged under the same key with the
same IV. And `recv_authenticated` only verifies the tag: nothing records what was
received, so a frame replayed by the network is accepted again.

The run below exchanges keys between nodes 0 and 1, lets each send one authenticated
message, and delivers node 0's twice (`nonce_reuse_and_replay`).
-/

namespace Ccf.Node

/-- The order of shares is total. -/
theorem Share.le_total (a b : Share) : a.le b = true ∨ b.le a = true := by
  unfold Share.le
  rcases Nat.lt_trichotomy a.owner b.owner with h | h | h
  · simp [h]
  · rcases Nat.le_total a.peer b.peer with hp | hp <;> simp [h, hp]
  · simp [h]

/-- The order of shares is antisymmetric. -/
theorem Share.le_antisymm {a b : Share} (h₁ : a.le b = true) (h₂ : b.le a = true) : a = b := by
  unfold Share.le at h₁ h₂
  simp only [Bool.or_eq_true, decide_eq_true_eq, Bool.and_eq_true] at h₁ h₂
  obtain ⟨ao, ap⟩ := a
  obtain ⟨bo, bp⟩ := b
  simp only at h₁ h₂
  -- neither owner is below the other, so the owners agree, and then the peers do
  have ho : ao = bo := by grind
  subst ho
  have hp : ap = bp := by grind
  rw [hp]

/-- Both sides of a key exchange derive the same key. -/
theorem Key.ofShares_comm (a b : Share) : Key.ofShares a b = Key.ofShares b a := by
  unfold Key.ofShares
  by_cases h₁ : a.le b = true
  · by_cases h₂ : b.le a = true
    · rw [Share.le_antisymm h₁ h₂]
    · simp [h₁, h₂]
  · have h₂ : b.le a = true := (Share.le_total a b).resolve_left h₁
    simp [h₁, h₂]

/-- A channel tags with its key, takes its sequence number as the IV, and moves on to the
next number. -/
theorem Channel.tag_iv (c : Channel) (k : Key) (hs : c.status = .ESTABLISHED)
    (hk : c.key = some k) (aad : List Nat) :
    Channel.tag aad c = .ok ⟨c.seqNo, ⟨k, c.seqNo, aad, none⟩⟩ { c with seqNo := c.seqNo + 1 } := by
  obtain ⟨own, peer, status, key, seqNo⟩ := c
  simp only at hs hk
  subst hs hk
  rfl

/-- Node 0 tries to send and starts the key exchange; node 1 answers; each then sends
one authenticated message to the other. -/
def keyExchangeThenSend : List Net.Call :=
  [.sendAuthenticated 0 1 [7],
   .deliver 0 1 (.channel .key_exchange 0 ⟨0, 1⟩),
   .deliver 1 0 (.channel .key_exchange_response 1 ⟨1, 0⟩),
   .sendAuthenticated 0 1 [7],
   .sendAuthenticated 1 0 [8]]

/-- The key of nodes 0 and 1. -/
def pairKey : Key := Key.ofShares ⟨0, 1⟩ ⟨1, 0⟩

/-- Node 0's frame to node 1. -/
def frameFrom0 : Packet := .authenticated 0 [7] ⟨0, ⟨pairKey, 0, [0, 7], none⟩⟩

/-- Node 1's frame to node 0. -/
def frameFrom1 : Packet := .authenticated 1 [8] ⟨0, ⟨pairKey, 0, [1, 8], none⟩⟩

/-- Two different frames go out under one key and one IV, and node 1 accepts node 0's
frame each of the two times the network delivers it. -/
theorem nonce_reuse_and_replay :
    Net.IsRun (Net.init.play (keyExchangeThenSend ++
      [.deliver 0 1 frameFrom0, .deliver 0 1 frameFrom0])) ∧
      (0, 1, frameFrom0) ∈ (Net.init.after keyExchangeThenSend).wire ∧
      (1, 0, frameFrom1) ∈ (Net.init.after keyExchangeThenSend).wire ∧
      frameFrom0 ≠ frameFrom1 ∧
      (frameFrom0.hdr?.map fun h => (h.tag.key, h.iv)) = some (pairKey, 0) ∧
      (frameFrom1.hdr?.map fun h => (h.tag.key, h.iv)) = some (pairKey, 0) ∧
      (Net.init.after (keyExchangeThenSend ++
        [.deliver 0 1 frameFrom0, .deliver 0 1 frameFrom0])).accepted.count (1, frameFrom0) = 2 := by
  refine ⟨Net.IsRun.play (by decide), ?_⟩
  decide

end Ccf.Node
