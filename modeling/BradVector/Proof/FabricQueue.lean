import BradVector.FabricTraffic
import BradVector.Library.RingBuffer

/-!
# The message queue is a circular buffer

The positions of `fabric_state.q` are 64-bit numbers, masked to the size of the array wherever they
are used. The array is a power of two, so that the mask is the remainder, and the queue is the
circular buffer with its head and its fill level.
-/

namespace BradVector

open CSem

namespace FabricQueue

theorem slot_eq (pos : Size) : slot pos = pos.toNat % fabricQueueBytes := by
  have hand : pos.toNat &&& (2 ^ 17 - 1) = pos.toNat % 2 ^ 17 := Nat.and_two_pow_sub_one_eq_mod _ _
  simpa [slot, fabricQueueSize, fabricQueueBytes] using hand

theorem mod_toNat_add (a b : Size) :
    (a + b).toNat % fabricQueueBytes = (a.toNat + b.toNat) % fabricQueueBytes := by
  have hdvd : fabricQueueBytes ∣ 2 ^ 64 := ⟨2 ^ 47, rfl⟩
  rw [BitVec.toNat_add, Nat.mod_mod_of_dvd _ hdvd]

theorem fill_eq (data : Nat → Byte) (pos : Size) (bs : List Byte) :
    fill data pos bs = Circle.fill fabricQueueBytes data pos.toNat bs := by
  induction bs generalizing data pos with
  | nil => rfl
  | cons b bs ih =>
      rw [fill, Circle.fill, ih, slot_eq]
      exact Circle.fill_congr_pos (mod_toNat_add pos 1)

theorem scan_eq (data : Nat → Byte) (pos : Size) (n : Nat) :
    scan data pos n = Circle.scan fabricQueueBytes data pos.toNat n := by
  induction n generalizing pos with
  | zero => rfl
  | succ n ih =>
      rw [scan, Circle.scan_succ, ih, slot_eq, Circle.scan_congr_pos (mod_toNat_add pos 1)]
      rfl

/-- The fill level and the positions of the queue agree. -/
structure Valid (q : FabricQueue) : Prop where
  head_lt : q.head.toNat < fabricQueueBytes
  used_le : q.used.toNat ≤ fabricQueueBytes
  tail_eq : q.tail.toNat = (q.head.toNat + q.used.toNat) % fabricQueueBytes

/-- The circular buffer the queue is. -/
def Valid.ring {q : FabricQueue} (h : q.Valid) : RingBuffer Byte fabricQueueBytes :=
  ⟨q.data, q.head.toNat, q.used.toNat, h.used_le⟩

/-- The bytes in the queue, the next one to be received first. -/
def contents (q : FabricQueue) : List Byte :=
  Circle.scan fabricQueueBytes q.data q.head.toNat q.used.toNat

theorem contents_length (q : FabricQueue) : q.contents.length = q.used.toNat := Circle.scan_length

theorem valid_zero : zero.Valid := ⟨by decide, by decide, by decide⟩

section

variable {q : FabricQueue} {bs : List Byte} {len n : Size}

theorem used_push (hfits : q.used.toNat + len.toNat ≤ fabricQueueBytes) :
    (q.push bs len).used.toNat = q.used.toNat + len.toNat := by
  rw [push, BitVec.toNat_add, Nat.mod_eq_of_lt]
  exact Nat.lt_of_le_of_lt hfits (by decide)

/-- **Storing a message appends it to the queue.** -/
theorem Valid.push (h : q.Valid) (hlen : bs.length = len.toNat)
    (hfits : q.used.toNat + len.toNat ≤ fabricQueueBytes) :
    (q.push bs len).Valid ∧ (q.push bs len).contents = q.contents ++ bs := by
  have hused : (q.push bs len).used.toNat = q.used.toNat + len.toNat := used_push hfits
  have hring : h.ring.used + bs.length ≤ fabricQueueBytes := by
    rw [hlen]
    exact hfits
  have htail : h.ring.tail = q.tail.toNat := h.tail_eq.symm
  refine ⟨⟨h.head_lt, hused ▸ hfits, ?_⟩, ?_⟩
  · calc (q.push bs len).tail.toNat
        = (q.tail + len).toNat % fabricQueueBytes := slot_eq _
      _ = (q.tail.toNat + len.toNat) % fabricQueueBytes := mod_toNat_add _ _
      _ = (h.ring.push bs hring).tail := by
        rw [RingBuffer.tail_push, htail, hlen]
      _ = (q.head.toNat + (q.push bs len).used.toNat) % fabricQueueBytes := by
        rw [hused, ← hlen]
        rfl
  · calc (q.push bs len).contents
        = (h.ring.push bs hring).contents := by
          rw [contents, hused, ← hlen, RingBuffer.contents, RingBuffer.push, htail, ← fill_eq]
          rfl
      _ = q.contents ++ bs := h.ring.contents_push bs hring

/-- **Fetching takes bytes from the front of the queue.** -/
theorem Valid.pop (h : q.Valid) (hn : n.toNat ≤ q.used.toNat) :
    (q.pop n).Valid ∧ scan q.data q.head n.toNat ++ (q.pop n).contents = q.contents := by
  have hused : (q.pop n).used.toNat = q.used.toNat - n.toNat := by
    rw [FabricQueue.pop, BitVec.toNat_sub_of_le hn]
  have hhead : (q.pop n).head.toNat = (q.head.toNat + n.toNat) % fabricQueueBytes :=
    (slot_eq _).trans (mod_toNat_add _ _)
  refine ⟨⟨?_, ?_, ?_⟩, ?_⟩
  · rw [hhead]
    exact Nat.mod_lt _ (by decide)
  · rw [hused]
    exact Nat.le_trans (Nat.sub_le _ _) h.used_le
  · calc (q.pop n).tail.toNat
        = (h.ring.pop n.toNat).tail := by
          rw [RingBuffer.tail_pop _ hn]
          exact h.tail_eq
      _ = ((q.pop n).head.toNat + (q.pop n).used.toNat) % fabricQueueBytes := by
        rw [hused, hhead]
        rfl
  · calc scan q.data q.head n.toNat ++ (q.pop n).contents
        = h.ring.front n.toNat ++ (h.ring.pop n.toNat).contents := by
          rw [scan_eq, contents, hused, hhead]
          rfl
      _ = q.contents := h.ring.front_append_contents_pop hn

end

end FabricQueue

end BradVector
