import BradVector.Proof.World

/-!
# Transfers between ranks

In a ready world the addresses the collectives compute lie in the ranks' windows, so `fabric_dma`
copies between the memories of two ranks and touches nothing else. `memcpy` within a rank and a word
stored there have the same shape: one stretch of one rank's memory changes.
-/

namespace BradVector

open CSem

/-- Rank `d`'s memory has `bs` at `b`, and nothing else changed. -/
structure Comm.Wrote (c : Comm) (d b : Nat) (bs : List Byte) (c' : Comm) : Prop where
  keeps : c.Keeps c'
  self : c'.rank d = writeBytes (c.rank d) b bs
  other : ∀ r < c.world.nranks, r ≠ d → c'.rank r = c.rank r

section

variable {c : Comm} (hc : c.Ready) {s d : Nat} (hs : s < c.world.nranks) (hd : d < c.world.nranks)

theorem bvcommWindowStride_toNat : bvcommWindowStride.toNat = 4294967296 := by decide

include hc in
theorem Comm.Ready.window_toNat_lt : c.world.windowBytes.toNat < 4294967296 := by
  have hlt : c.world.windowBytes.toNat < bvcommWindowStride.toNat := hc.window_lt
  rwa [bvcommWindowStride_toNat] at hlt

include hc hd in
theorem Comm.Ready.base_toNat : (c.world.base d).toNat = d * 4294967296 ∧ d < 64 := by
  have hle := c.world.nranks_le
  simp only [bvcommMaxRanks, fabricMaxNodes] at hle
  refine ⟨?_, by omega⟩
  rw [hc.base_eq d hd, BitVec.toNat_mul, BitVec.toNat_ofNat, bvcommWindowStride_toNat]
  omega

include hc hd in
theorem Comm.Ready.not_lt_base {x : Size} (hx : d * 4294967296 + x.toNat < 2 ^ 64) :
    ¬ c.world.base d + x < (c.fabric.node d).info.addressBase := by
  obtain ⟨hbase, -⟩ := hc.base_toNat hd
  rw [hc.node_eq d hd, BitVec.not_lt, BitVec.le_def]
  simp only [rankNode, rankInfo, ← hc.base_eq d hd, BitVec.toNat_add]
  omega

include hc hd in
theorem regionValid_rank {x len : Size} (hx : x.toNat + len.toNat ≤ c.world.windowBytes.toNat) :
    c.fabric.regionValid d (c.world.base d + x) len = true := by
  obtain ⟨hbase, hd64⟩ := hc.base_toNat hd
  have hlt := hc.window_toNat_lt
  have hlow := hc.not_lt_base hd (x := x) (by omega)
  have hhigh : ¬ (c.fabric.node d).info.addressLimit + 1 < c.world.base d + x + len := by
    rw [hc.node_eq d hd, BitVec.not_lt, BitVec.le_def]
    simp only [rankNode, rankInfo, ← hc.base_eq d hd, BitVec.sub_add_cancel, BitVec.toNat_add]
    omega
  rw [Fabric.regionValid, if_neg hlow, if_neg hhigh]

include hc hd in
theorem translate_rank {x : Size} (hx : x.toNat < c.world.windowBytes.toNat) :
    c.fabric.translate d (c.world.base d + x) = c.world.mem d + x.toNat := by
  obtain ⟨hbase, hd64⟩ := hc.base_toNat hd
  have hlt := hc.window_toNat_lt
  have hlow := hc.not_lt_base hd (x := x) (by omega)
  have hhigh : ¬ (c.fabric.node d).info.addressBase + (c.fabric.node d).memLen ≤
      c.world.base d + x := by
    rw [hc.node_eq d hd, BitVec.not_le, BitVec.lt_def]
    simp only [rankNode, rankInfo, ← hc.base_eq d hd, BitVec.toNat_add]
    omega
  have hnull : ¬ (c.fabric.node d).mem.isNull = true := by
    rw [hc.node_eq d hd]
    exact Bool.eq_false_iff.mp (hc.mem_nonnull d hd)
  rw [Fabric.translate, if_neg hnull, if_neg (by simp [hlow, hhigh]), hc.node_eq d hd]
  simp only [rankNode, rankInfo, ← hc.base_eq d hd]
  rw [add_sub_cancel_left]

include hc hd in
theorem wrote_poke (b : Nat) (bs : List Byte) :
    c.Wrote d b bs { c with heap := c.heap.poke (c.world.mem d + b) bs } where
  keeps := Comm.Keeps.of_heap Heap.sameBlocks_poke
  self := by
    funext a
    simp only [Comm.rank, Heap.poke, Ptr.add_block, Ptr.add_off, Function.update_self, writeBytes]
    have hiff : (c.world.mem d).off + b ≤ (c.world.mem d).off + a ∧
        (c.world.mem d).off + a < (c.world.mem d).off + b + bs.length ↔
        b ≤ a ∧ a < b + bs.length := by omega
    have hsub : (c.world.mem d).off + a - ((c.world.mem d).off + b) = a - b := by omega
    rw [if_congr hiff rfl rfl, hsub]
  other r hr hne := by
    funext a
    have hblock : (c.world.mem r).block ≠ (c.world.mem d + b).block :=
      fun heq => hne (hc.mem_inj r hr d hd heq)
    exact congrFun (Heap.poke_bytes_of_ne hblock) _

include hc hd in
theorem in_block {b len : Nat} (hb : b + len ≤ c.world.windowBytes.toNat) :
    (c.world.mem d + b).off + len ≤ c.heap.size (c.world.mem d + b).block := by
  rw [Ptr.add_off, Ptr.add_block, hc.mem_off d hd, hc.mem_size d hd]
  omega

theorem readBytes_rank (a len : Nat) :
    readBytes (c.heap.bytes (c.world.mem s + a).block) (c.world.mem s + a).off len =
      readBytes (c.rank s) a len := by
  refine List.map_congr_left fun i _ => ?_
  rw [Ptr.add_off, Ptr.add_block, Nat.add_assoc, Comm.rank]

include hc hs hd in
/-- **A transfer.** `fabric_dma` between two stretches of the ranks' windows copies the bytes. -/
theorem dma_sat {x y len : Size} (hlen : len ≠ 0)
    (hx : x.toNat + len.toNat ≤ c.world.windowBytes.toNat)
    (hy : y.toNat + len.toNat ≤ c.world.windowBytes.toNat) :
    (c.dma s d (c.world.base s + x) (c.world.base d + y) len).Sat
      (c.Wrote d y.toNat (readBytes (c.rank s) x.toNat len.toNat)) (fun _ => False)
      fun _ => False := by
  have hpos : 0 < len.toNat := Nat.pos_of_ne_zero fun h => hlen (BitVec.eq_of_toNat_eq h)
  obtain ⟨hsrc, hdst, hflags⟩ := hc.ends s hs d hd
  have hvalid : DmaValid c.fabric (c.world.ch s d) (c.world.base s + x)
      (c.world.base d + y) len := by
    refine ⟨hc.initialized, hlen, ?_, ?_, ?_⟩
    · rw [hflags]
      decide
    · rw [hsrc]
      exact regionValid_rank hc hs hx
    · rw [hdst]
      exact regionValid_rank hc hd hy
  have hmove : (dmaMove c.heap (c.world.mem s + x.toNat) (c.world.mem d + y.toNat) len :
      CommOutcome Heap) =
        .ok (c.heap.poke (c.world.mem d + y.toNat) (readBytes (c.rank s) x.toNat len.toNat)) := by
    have hnull :
        ¬ ((c.world.mem s + x.toNat).isNull || (c.world.mem d + y.toNat).isNull) = true := by
      have hsnull := hc.mem_nonnull s hs
      have hdnull := hc.mem_nonnull d hd
      simpa [Ptr.isNull] using And.intro hsnull hdnull
    rw [dmaMove, if_neg hnull, Heap.memmove_eq_ok (in_block hc hs hx) (in_block hc hd hy),
      readBytes_rank]
  have hkeep := (keeps_dma c s d (c.world.base s + x) (c.world.base d + y) len)
  rw [Comm.dma, fabricDma_of_valid hvalid, hsrc, hdst, translate_rank hc hs (by omega),
    translate_rank hc hd (by omega), hmove] at hkeep ⊢
  have hwrote := wrote_poke hc hd y.toNat (readBytes (c.rank s) x.toNat len.toNat)
  exact ⟨hkeep, hwrote.self, hwrote.other⟩

include hc hd in
theorem memcpy_rank_sat {a b len : Nat} (ha : a + len ≤ c.world.windowBytes.toNat)
    (hb : b + len ≤ c.world.windowBytes.toNat) (hapart : a + len ≤ b ∨ b + len ≤ a) :
    ((c.heap.memcpy (c.world.mem d + b) (c.world.mem d + a) len : CommOutcome Heap).bind
      fun heap => .ok { c with heap }).Sat (c.Wrote d b (readBytes (c.rank d) a len))
      (fun _ => False) fun _ => False := by
  rw [Heap.memcpy_eq_ok (in_block hc hd ha) (in_block hc hd hb)
    (by simp only [Ptr.add_off]; omega), readBytes_rank]
  exact wrote_poke hc hd b _

include hc hd in
theorem load32_rank {a : Nat} (ha : a + 4 ≤ c.world.windowBytes.toNat) :
    (c.heap.load32 (c.world.mem d + a) : CommOutcome Word) = .ok (wordAt (c.rank d) a) := by
  rw [Heap.load32_eq_ok (in_block hc hd ha), wordAt, wordAt, readBytes_rank]

include hc hd in
theorem store32_rank_sat {a : Nat} (ha : a + 4 ≤ c.world.windowBytes.toNat) (w : Word) :
    ((c.heap.store32 (c.world.mem d + a) w : CommOutcome Heap).bind
      fun heap => .ok { c with heap }).Sat (c.Wrote d a (toLE 4 w.toNat)) (fun _ => False)
      fun _ => False := by
  rw [Heap.store32_eq_ok (in_block hc hd ha)]
  exact wrote_poke hc hd a _

end

/-! ### Adding up a stretch -/

/-- The `k` words of rank `r` at `dst` have those at `inbox` added to them, and nothing else
changed. -/
structure Comm.Added (add : Word → Word → Word) (c : Comm) (r dst inbox k : Nat) (c' : Comm) :
    Prop where
  keeps : c.Keeps c'
  words : ∀ j < k, wordAt (c'.rank r) (dst + 4 * j) =
    add (wordAt (c.rank r) (dst + 4 * j)) (wordAt (c.rank r) (inbox + 4 * j))
  outside : ∀ x, x < dst ∨ dst + 4 * k ≤ x → c'.rank r x = c.rank r x
  other : ∀ q < c.world.nranks, q ≠ r → c'.rank q = c.rank q

theorem addElem_sat {add : Word → Word → Word} {c c' : Comm} (hc : c.Ready) {r dst inbox j k : Nat}
    (hr : r < c.world.nranks) (hj : j < k) (hapart : dst + 4 * k ≤ inbox)
    (hin : inbox + 4 * k ≤ c.world.windowBytes.toNat) (h : c.Added add r dst inbox j c') :
    (addElem add (c.world.mem r + dst) (c.world.mem r + inbox) j c').Sat
      (c.Added add r dst inbox (j + 1)) (fun _ => False) fun _ => False := by
  have hc' : c'.Ready := hc.keeps h.keeps
  have hr' : r < c'.world.nranks := h.keeps.nranks ▸ hr
  have hwindow : c'.world.windowBytes = c.world.windowBytes := h.keeps.windowBytes
  have hsame : ∀ a, dst + 4 * j ≤ a → wordAt (c'.rank r) a = wordAt (c.rank r) a :=
    fun a ha => wordAt_congr fun i _ => h.outside _ (by omega)
  rw [addElem, Ptr.add_add, Ptr.add_add, ← h.keeps.mem,
    load32_rank hc' hr' (by rw [hwindow]; omega), load32_rank hc' hr' (by rw [hwindow]; omega),
    hsame _ le_rfl, hsame _ (by omega)]
  refine (store32_rank_sat hc' hr' (by rw [hwindow]; omega) _).mono (fun c'' hw => ?_)
    (fun _ => id) fun _ => id
  refine ⟨h.keeps.trans hw.keeps, fun j' hj' => ?_, fun x hx => ?_, fun q hq hne => ?_⟩
  · rw [hw.self]
    rcases Nat.lt_succ_iff_lt_or_eq.mp hj' with hlt | rfl
    · rw [wordAt_writeBytes_of_disjoint (by rw [toLE_length]; omega), h.words j' hlt]
    · rw [wordAt_writeBytes_self]
  · rw [hw.self, writeBytes_of_disjoint (by rw [toLE_length]; omega), h.outside x (by omega)]
  · rw [hw.other q (h.keeps.nranks ▸ hq) hne, h.other q hq hne]

/-- **Adding up.** The loop of `dst[j] += inbox[j]` over a stretch of a rank's memory. -/
theorem addElems_sat (add : Word → Word → Word) {c : Comm} (hc : c.Ready) {r dst inbox k : Nat}
    (hr : r < c.world.nranks) (hapart : dst + 4 * k ≤ inbox)
    (hin : inbox + 4 * k ≤ c.world.windowBytes.toNat) :
    (Outcome.forRange k (fun j => addElem add (c.world.mem r + dst)
      (c.world.mem r + inbox) j) c).Sat
      (c.Added add r dst inbox k) (fun _ => False) fun _ => False :=
  Outcome.Sat.forRange (I := fun j => c.Added add r dst inbox j)
    ⟨Comm.Keeps.refl c, fun j hj => absurd hj (Nat.not_lt_zero j), fun _ _ => rfl,
      fun _ _ _ => rfl⟩
    fun j _ h => addElem_sat hc hr j.isLt hapart hin h

end BradVector
