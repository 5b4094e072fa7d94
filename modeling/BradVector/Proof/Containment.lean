import BradVector.Proof.AllGather

/-!
# Where the collectives write

What a collective writes lies in the ranges it was asked for and in the inboxes, provided that the
sums and products its tests are about did not wrap. The tests compare them in `size_t`: an offset
near `2 ^ 62` passes, and the call then works on other elements than it was asked for.
-/

namespace BradVector

open CSem Collective

/-! ### The bytes a piece of code touches -/

/-- Nothing but bytes of the ranks' memories at the places `touched` names differs. -/
structure Comm.Touches (c : Comm) (touched : Nat → Prop) (c' : Comm) : Prop where
  keeps : c.Keeps c'
  bytes : ∀ b a, c'.heap.bytes b a ≠ c.heap.bytes b a →
    ∃ r < c.world.nranks, ∃ x, touched x ∧ b = (c.world.mem r).block ∧ a = (c.world.mem r).off + x

section Touches

variable {c c' c'' : Comm} {touched : Nat → Prop}

theorem Comm.Touches.refl (c : Comm) (touched : Nat → Prop) : c.Touches touched c :=
  ⟨Comm.Keeps.refl c, fun _ _ h => absurd rfl h⟩

theorem Comm.Touches.trans (h : c.Touches touched c') (h' : c'.Touches touched c'') :
    c.Touches touched c'' where
  keeps := h.keeps.trans h'.keeps
  bytes b a hne := by
    by_cases hlast : c''.heap.bytes b a = c'.heap.bytes b a
    · exact h.bytes b a (hlast ▸ hne)
    · have hbyte := h'.bytes b a hlast
      rwa [h.keeps.nranks, h.keeps.mem] at hbyte

theorem Comm.Touches.mono {touched' : Nat → Prop} (h : c.Touches touched c')
    (himp : ∀ x, touched x → touched' x) : c.Touches touched' c' where
  keeps := h.keeps
  bytes b a hne := by
    obtain ⟨r, hr, x, hx, hplace⟩ := h.bytes b a hne
    exact ⟨r, hr, x, himp x hx, hplace⟩

theorem touches_forRange {n : Nat} {body : Fin n → Comm → CommOutcome Comm} (c : Comm)
    (hbody : ∀ i c', c.Keeps c' → (body i c').Sat (c'.Touches touched) (fun _ => False)
      fun _ => True) :
    (Outcome.forRange n body c).Sat (c.Touches touched) (fun _ => False) fun _ => True := by
  refine Outcome.Sat.forRange (I := fun _ => c.Touches touched) (Comm.Touches.refl c _)
    fun i c' hc' => ?_
  exact (hbody i c' hc'.keeps).mono (fun _ => hc'.trans) (fun _ => id) fun _ => id

theorem touches_bind {o : CommOutcome Comm} {f : Comm → CommOutcome Comm}
    (ho : o.Sat (c.Touches touched) (fun _ => False) fun _ => True)
    (hf : ∀ c', c.Keeps c' → (f c').Sat (c'.Touches touched) (fun _ => False) fun _ => True) :
    (o.bind f).Sat (c.Touches touched) (fun _ => False) fun _ => True :=
  ho.bind fun c' hc' => (hf c' hc'.keeps).mono (fun _ => hc'.trans) (fun _ => id) fun _ => id

end Touches

section Primitives

variable {c : Comm} (hc : c.Ready) {s d : Nat} (hd : d < c.world.nranks)

/-- The places of `len` bytes from `first` on. -/
def Stretch (first len x : Nat) : Prop := first ≤ x ∧ x < first + len

include hd in
theorem touches_poke (y : Nat) (bs : List Byte) :
    c.Touches (Stretch y bs.length) { c with heap := c.heap.poke (c.world.mem d + y) bs } where
  keeps := Comm.Keeps.of_heap Heap.sameBlocks_poke
  bytes b a hne := by
    obtain ⟨hblock, hlo, hhi⟩ := Heap.poke_bytes_ne hne
    rw [Ptr.add_off] at hlo hhi
    exact ⟨d, hd, a - (c.world.mem d).off, ⟨by omega, by omega⟩, hblock, by omega⟩

include hd in
theorem touches_heap {y len : Nat} {o : CommOutcome Heap}
    (ho : o.Sat (fun h => ∃ bs, bs.length = len ∧ h = c.heap.poke (c.world.mem d + y) bs)
      (fun _ => False) fun _ => True) :
    (o.bind fun heap => .ok { c with heap }).Sat (c.Touches (Stretch y len)) (fun _ => False)
      fun _ => True := by
  refine ho.bind ?_
  rintro _ ⟨bs, rfl, rfl⟩
  exact touches_poke hd y bs

/-- A transfer writes at the translated address or not at all. -/
theorem fabricDma_pokes {ε : Type} (f : Fabric) (h : Heap) (ch : FabricChannel)
    (srcAddr dstAddr len : Size) :
    (fabricDma f h ch srcAddr dstAddr len : Outcome HeapFault ε DmaResult).Sat
      (fun t => t.heap = h ∨ (f.translate ch.dstNode dstAddr).isNull = false ∧ ∃ bs,
        bs.length = len.toNat ∧ t.heap = h.poke (f.translate ch.dstNode dstAddr) bs)
      (fun _ => False) fun _ => True := by
  by_cases hv : DmaValid f ch srcAddr dstAddr len
  · rw [fabricDma_of_valid hv, dmaMove]
    split_ifs with hnull
    · exact .inl rfl
    · rw [Bool.or_eq_true, not_or, Bool.not_eq_true, Bool.not_eq_true] at hnull
      refine Outcome.Sat.bind (Heap.memmove_pokes _ _ _) fun h' hh' => ?_
      exact .inr ⟨hnull.2, hh'⟩
  · obtain ⟨ret, -, heq⟩ := fabricDma_of_not_valid (ε := ε) (h := h) hv
    rw [heq]
    exact .inl rfl

include hc hd in
/-- An address that a rank's node translates at all is a place in the rank's memory. -/
theorem translate_rank_of_nonnull {y : Size}
    (hnull : (c.fabric.translate d (c.world.base d + y)).isNull = false) :
    c.fabric.translate d (c.world.base d + y) = c.world.mem d + y.toNat := by
  rw [Fabric.translate, hc.node_eq d hd] at hnull ⊢
  split_ifs at hnull ⊢ with hmem hrange
  · exact absurd hnull (by decide)
  · exact absurd hnull (by decide)
  · simp only [rankNode, rankInfo, ← hc.base_eq d hd]
    rw [add_sub_cancel_left]

include hc hd in
theorem touches_dma (hs : s < c.world.nranks) (srcAddr y len : Size) :
    (c.dma s d srcAddr (c.world.base d + y) len).Sat (c.Touches (Stretch y.toNat len.toNat))
      (fun _ => False) fun _ => True := by
  have hdst : (c.world.ch s d).dstNode = d := (hc.ends s hs d hd).2.1
  have hpokes : (c.dma s d srcAddr (c.world.base d + y) len).Sat
      (fun c' => ∀ b a, c'.heap.bytes b a ≠ c.heap.bytes b a → ∃ r < c.world.nranks, ∃ x,
        Stretch y.toNat len.toNat x ∧ b = (c.world.mem r).block ∧ a = (c.world.mem r).off + x)
      (fun _ => False) fun _ => True := by
    refine (fabricDma_pokes c.fabric c.heap (c.world.ch s d) srcAddr _ len).bind ?_
    rintro t (hsame | ⟨hnull, bs, hlen, hpoke⟩)
    · intro b a hne
      exact absurd (congrFun (congrFun (congrArg Heap.bytes hsame) b) a) hne
    · rw [hdst] at hnull hpoke
      rw [translate_rank_of_nonnull hc hd hnull] at hpoke
      intro b a hne
      rw [← hlen]
      refine (touches_poke hd y.toNat bs).bytes b a ?_
      rw [← hpoke]
      exact hne
  exact ((keeps_dma c s d srcAddr _ len).and hpokes).mono (fun _ h => ⟨h.1, h.2⟩)
    (fun _ h => h.1) fun _ _ => trivial

end Primitives

/-! ### Calls that stay inside -/

/-- The requested elements, as their first index and their number, and the inboxes. -/
def Comm.MayTouch (c : Comm) (ranges : List (Nat × Nat)) (x : Nat) : Prop :=
  (∃ rg ∈ ranges, Stretch (4 * rg.1) (4 * rg.2) x) ∨
    Stretch c.world.bufBytes.toNat c.world.scratchBytes.toNat x

/-- The requested elements lie in the user buffers. -/
def Comm.Inside (c : Comm) (ranges : List (Nat × Nat)) : Prop :=
  ∀ rg ∈ ranges, 4 * (rg.1 + rg.2) ≤ c.world.bufBytes.toNat

/-- The call is defined, returns 0 for a nonzero count only if the requested elements lie in the
user buffers, and writes nothing but these and the inboxes. -/
def Comm.Contained (c : Comm) (ranges : List (Nat × Nat)) (count : Size)
    (call : CommOutcome (Int × Comm)) : Prop :=
  ∃ ret c', call = .ok (ret, c') ∧ (ret = 0 → count ≠ 0 → c.Inside ranges) ∧
    c.Touches (c.MayTouch ranges) c'

section Contained

variable {c : Comm} {ranges : List (Nat × Nat)} {count : Size}

theorem contained_of_idle {ret : Int} (h : ret = 0 → count ≠ 0 → c.Inside ranges) :
    c.Contained ranges count (.ok (ret, c)) :=
  ⟨ret, c, rfl, h, Comm.Touches.refl c _⟩

theorem contained_of_sat {o : CommOutcome Comm} (hin : c.Inside ranges)
    (hdefined : o.Sat (fun _ => True) (fun _ => False) fun _ => False)
    (htouches : o.Sat (c.Touches (c.MayTouch ranges)) (fun _ => False) fun _ => True) :
    c.Contained ranges count (o.bind fun c' => .ok (0, c')) := by
  obtain ⟨c', hok, -⟩ := hdefined.exists_ok
  refine ⟨0, c', ?_, fun _ _ => hin, htouches.of_eq_ok hok⟩
  rw [hok]
  rfl

theorem inside_of_contained {o : CommOutcome Comm} (hcount : count ≠ 0)
    (h : c.Contained ranges count (o.bind fun c' => .ok (0, c'))) : c.Inside ranges := by
  obtain ⟨ret, c', hcall, hin, -⟩ := h
  obtain ⟨c₁, -, hret⟩ := Outcome.bind_eq_ok_iff.mp hcall
  cases hret
  exact hin rfl hcount

theorem not_contained_of_never {call : CommOutcome (Int × Comm)}
    (h : call.Sat (fun _ => False) (fun _ => False) fun _ => True) :
    ¬ c.Contained ranges count call := by
  rintro ⟨ret, c', hcall, -⟩
  exact h.of_eq_ok hcall

theorem inside_one {off count : Nat} :
    c.Inside [(off, count)] ↔ 4 * (off + count) ≤ c.world.bufBytes.toNat := by
  simp [Comm.Inside]

end Contained

/-! ### The all-reduce -/

section AllReduce

variable {add : Word → Word → Word} {c : Comm} {off count : Size} {cs : Nat → Size}

/-- The chunks and the inboxes. -/
def Comm.ChunksTouch (c : Comm) (off : Size) (cs : Nat → Size) (x : Nat) : Prop :=
  chunkStart off cs 0 ≤ x ∧ x < chunkStart off cs c.world.nranks ∨
    Stretch c.world.bufBytes.toNat c.world.scratchBytes.toNat x

theorem Comm.Keeps.chunksTouch {c' : Comm} (h : c.Keeps c') :
    c'.ChunksTouch off cs = c.ChunksTouch off cs := by
  funext x
  rw [Comm.ChunksTouch, Comm.ChunksTouch, h.nranks, h.bufBytes, h.scratchBytes]

theorem touches_sendChunk (hc : c.Ready) (hp : Plan c.world off cs) {n r send : Nat}
    (hn : c.world.nranks = n) (hr : r < c.world.nranks) (hsend : send < c.world.nranks) :
    (sendChunk off cs n r send c).Sat (c.Touches (c.ChunksTouch off cs)) (fun _ => False)
      fun _ => True := by
  have hnext : (r + 1) % n < c.world.nranks := by
    rw [← hn]
    exact Nat.mod_lt _ c.world.nranks_pos
  have hlen := hp.chunkLen_toNat hsend
  have hinbox := hp.inbox send hsend
  unfold sendChunk
  split_ifs
  · exact Comm.Touches.refl c _
  · refine (touches_dma hc hnext hr _ _ _).mono (fun _ h => h.mono fun x hx => .inr ?_)
      (fun _ => id) fun _ => id
    unfold Stretch at hx ⊢
    omega

theorem Plan.chunksTouch (hp : Plan c.world off cs) {j x : Nat} (hj : j < c.world.nranks)
    (hx : Stretch (chunkStart off cs j) (4 * chunkCount cs j) x) : c.ChunksTouch off cs x := by
  have hlo := hp.start_mono (Nat.zero_le j) (Nat.le_of_lt hj)
  have hhi : chunkStart off cs (j + 1) ≤ chunkStart off cs c.world.nranks :=
    hp.start_mono hj le_rfl
  have hsucc := hp.start_succ hj
  unfold Stretch at hx
  exact .inl ⟨by omega, by omega⟩

theorem touches_addChunk (hp : Plan c.world off cs) {r j : Nat} (hr : r < c.world.nranks)
    (hj : j < c.world.nranks) :
    (addChunk add off cs r j c).Sat (c.Touches (c.ChunksTouch off cs)) (fun _ => False)
      fun _ => True := by
  unfold addChunk
  split_ifs
  · exact Comm.Touches.refl c _
  · dsimp only
    rw [hp.start_toNat hj, hp.elems_toNat hj]
    refine touches_forRange c fun i c' hk => ?_
    have hr' : r < c'.world.nranks := by rwa [hk.nranks]
    have hstore : (addElem add (c.world.mem r + chunkStart off cs j)
        (c.world.mem r + c.world.bufBytes.toNat) i c').Sat
        (c'.Touches (Stretch (chunkStart off cs j + 4 * i) 4)) (fun _ => False) fun _ => True := by
      refine (Heap.load32_sat _ _).bind fun a _ => (Heap.load32_sat _ _).bind fun b _ => ?_
      rw [← hk.mem, Ptr.add_add]
      refine touches_heap hr' ?_
      exact (Heap.write_pokes _ _).mono (fun _ h => ⟨_, toLE_length _ _, h⟩) (fun _ => id)
        fun _ => id
    refine hstore.mono (fun _ h => h.mono fun x hx => hp.chunksTouch hj ?_) (fun _ => id)
      fun _ => id
    have hi := i.isLt
    unfold Stretch at hx ⊢
    omega

theorem touches_copyChunk (hp : Plan c.world off cs) {r j : Nat} (hr : r < c.world.nranks)
    (hj : j < c.world.nranks) :
    (copyChunk off cs r j c).Sat (c.Touches (c.ChunksTouch off cs)) (fun _ => False)
      fun _ => True := by
  have hlen : (chunkLen cs j).toNat = 4 * chunkCount cs j := by
    rw [hp.chunkLen_toNat hj, hp.start_succ hj, Nat.add_sub_cancel_left]
  unfold copyChunk
  split_ifs
  · exact Comm.Touches.refl c _
  · rw [hp.start_toNat hj, hlen]
    exact (touches_heap hr (Heap.memcpy_pokes _ _ _)).mono
      (fun _ h => h.mono fun x hx => hp.chunksTouch hj hx) (fun _ => id) fun _ => id

theorem touches_round (hc : c.Ready) (hp : Plan c.world off cs) {n : Nat} (hn : c.world.nranks = n)
    (send : Nat → Nat) {body : Fin n → Comm → CommOutcome Comm} (hsend : ∀ r, send r < n)
    (hbody : ∀ r c', c.Keeps c' → (body r c').Sat (c'.Touches (c'.ChunksTouch off cs))
      (fun _ => False) fun _ => True) :
    ((Outcome.forRange n (fun r => sendChunk off cs n r (send r)) c).bind
      (Outcome.forRange n body)).Sat (c.Touches (c.ChunksTouch off cs)) (fun _ => False)
      fun _ => True := by
  refine touches_bind (touches_forRange c fun r c' hk => ?_) fun c₁ hk₁ => ?_
  · have hn' : c'.world.nranks = n := hk.nranks.trans hn
    rw [← hk.chunksTouch]
    exact touches_sendChunk (hc.keeps hk) (hp.keeps hk) hn' (hn' ▸ r.isLt) (hn' ▸ hsend r)
  · rw [← hk₁.chunksTouch]
    refine touches_forRange c₁ fun r c' hk => ?_
    rw [← hk.chunksTouch]
    exact hbody r c' (hk₁.trans hk)

theorem touches_rounds (hc : c.Ready) (hp : Plan c.world off cs) {n : Nat}
    (hn : c.world.nranks = n) :
    ((Outcome.forRange (n - 1) (fun s => reduceScatterRound add off cs n s) c).bind
      (Outcome.forRange (n - 1) fun s => allGatherRound off cs n s)).Sat
      (c.Touches (c.ChunksTouch off cs)) (fun _ => False) fun _ => True := by
  have hpos : 0 < n := hn ▸ c.world.nranks_pos
  refine touches_bind (touches_forRange c fun s c' hk => ?_) fun c₁ hk₁ => ?_
  · rw [← hk.chunksTouch]
    refine touches_round (hc.keeps hk) (hp.keeps hk) (hk.nranks.trans hn) (fun r => (r + n - s) % n)
      (fun r => Nat.mod_lt _ hpos) fun r c'' hk' => ?_
    have hn'' : c''.world.nranks = n := (hk.trans hk').nranks.trans hn
    exact touches_addChunk (hp.keeps (hk.trans hk')) (by rw [hn'']; exact r.isLt)
      (by rw [hn'']; exact Nat.mod_lt _ hpos)
  · rw [← hk₁.chunksTouch]
    refine touches_forRange c₁ fun s c' hk => ?_
    have hk' := hk₁.trans hk
    rw [← hk.chunksTouch]
    refine touches_round (hc.keeps hk') (hp.keeps hk') (hk'.nranks.trans hn)
      (fun r => (r + n - s + 1) % n) (fun r => Nat.mod_lt _ hpos) fun r c'' hk'' => ?_
    have hn'' : c''.world.nranks = n := (hk'.trans hk'').nranks.trans hn
    exact touches_copyChunk (hp.keeps (hk'.trans hk'')) (by rw [hn'']; exact r.isLt)
      (by rw [hn'']; exact Nat.mod_lt _ hpos)

/-- What the test on a range says when its sum and product do not wrap. -/
theorem range_le_of_fits {c : Comm} {off count : Size}
    (hsize : (off.toNat + count.toNat) * 4 < 2 ^ 64)
    (hfits : (off + count) * sizeofFloat ≤ c.world.bufBytes) :
    4 * (off.toNat + count.toNat) ≤ c.world.bufBytes.toNat := by
  have hle := BitVec.le_def.mp hfits
  rw [BitVec.toNat_mul, BitVec.toNat_add, sizeofFloat_toNat] at hle
  omega

theorem range_lt_of_inside {c : Comm} {ranges : List (Nat × Nat)} (hin : c.Inside ranges)
    {off count : Nat} (hmem : (off, count) ∈ ranges) : (off + count) * 4 < 2 ^ 64 := by
  have hle := hin _ hmem
  have hlt := c.world.bufBytes.isLt
  omega

theorem Comm.ChunksTouch.mayTouch {x : Nat}
    (hx : c.ChunksTouch off (chunkOffsets count c.world.nranks) x) :
    c.MayTouch [(off.toNat, count.toNat)] x := by
  have hpos := c.world.nranks_pos
  have hfirst : chunkStart off (chunkOffsets count c.world.nranks) 0 = 4 * off.toNat := by
    rw [chunkStart, chunkOffsets, show (0 : Size).toNat = 0 from rfl]
    omega
  have hlast : chunkStart off (chunkOffsets count c.world.nranks) c.world.nranks =
      4 * off.toNat + 4 * count.toNat := by
    rw [chunkStart, chunkOffsets_toNat hpos c.world.nranks_le le_rfl, splitStart_last _ hpos]
    omega
  rw [Comm.ChunksTouch, hfirst, hlast] at hx
  refine hx.imp_left fun h => ⟨_, List.mem_singleton_self _, h⟩

theorem allreduce_contained (hc : c.Ready) (hcount : count ≠ 0) (hone : c.world.nranks ≠ 1)
    (hfits : c.AllreduceFits off count) (hsize : (off.toNat + count.toNat) * 4 < 2 ^ 64)
    (hw : ¬ c.world.Wrapped) :
    c.Contained [(off.toNat, count.toNat)] count (bvcommAllreduceSumF32 add off count c) := by
  have hplan := allreduce_plan hc hw hsize hfits.1 (hfits.2.resolve_left hone)
  rw [allreduce_of_fits hcount hone hfits]
  refine contained_of_sat ?_ ?_ ?_
  · exact inside_one.mpr (range_le_of_fits hsize hfits.1)
  · exact (allRounds_sat add rfl hc hplan).mono (fun _ _ => trivial) (fun _ => id) fun _ => id
  · exact (touches_rounds hc hplan rfl).mono (fun _ h => h.mono fun _ => Comm.ChunksTouch.mayTouch)
      (fun _ => id) fun _ => id

/-- **Where the all-reduce stays inside.** -/
theorem allreduce_contained_iff (hc : c.Ready) :
    c.Contained [(off.toNat, count.toNat)] count (bvcommAllreduceSumF32 add off count c) ↔
      (count ≠ 0 → c.AllreduceFits off count →
        (off.toNat + count.toNat) * 4 < 2 ^ 64 ∧ (c.world.nranks = 1 ∨ ¬ c.world.Wrapped)) := by
  constructor
  · intro h hcount hfits
    by_cases hone : c.world.nranks = 1
    · rw [allreduce_of_one hcount hone hfits] at h
      have hin := inside_of_contained hcount (o := .ok c) h
      exact ⟨range_lt_of_inside hin (List.mem_singleton_self _), .inl hone⟩
    · have hin := h
      rw [allreduce_of_fits hcount hone hfits] at hin
      have hsize := range_lt_of_inside (inside_of_contained hcount hin) (List.mem_singleton_self _)
      refine ⟨hsize, .inr fun hw => ?_⟩
      exact not_contained_of_never (allreduce_never add hc hw hsize hcount hone hfits) h
  · intro hcond
    by_cases hcount : count = 0
    · subst hcount
      rw [allreduce_of_empty]
      exact contained_of_idle fun _ h => absurd rfl h
    by_cases hfits : c.AllreduceFits off count
    · obtain ⟨hsize, hworld⟩ := hcond hcount hfits
      by_cases hone : c.world.nranks = 1
      · rw [allreduce_of_one hcount hone hfits]
        exact contained_of_idle fun _ _ => inside_one.mpr (range_le_of_fits hsize hfits.1)
      · exact allreduce_contained hc hcount hone hfits hsize (hworld.resolve_left hone)
    · rw [allreduce_of_not_fits hcount hfits]
      exact contained_of_idle fun h => absurd h (by decide)

end AllReduce

/-! ### The all-gather -/

section AllGather

variable {c : Comm} {inOff outOff count : Size}

/-- The elements a call reads and those it writes. -/
def Comm.gatherRanges (c : Comm) (inOff outOff count : Size) : List (Nat × Nat) :=
  [(inOff.toNat, count.toNat), (outOff.toNat, c.world.nranks * count.toNat)]

theorem Comm.Keeps.mayTouch {c' : Comm} {ranges : List (Nat × Nat)} (h : c.Keeps c') :
    c'.MayTouch ranges = c.MayTouch ranges := by
  funext x
  rw [Comm.MayTouch, Comm.MayTouch, h.bufBytes, h.scratchBytes]

theorem touches_snapshotInput (hp : c.GatherPlan inOff outOff count) {r : Nat}
    (hr : r < c.world.nranks) {ranges : List (Nat × Nat)} :
    (snapshotInput inOff count r c).Sat (c.Touches (c.MayTouch ranges)) (fun _ => False)
      fun _ => True := by
  have hinbox := hp.inbox
  refine (touches_heap hr (Heap.memcpy_pokes _ _ _)).mono (fun _ h => h.mono fun x hx => .inr ?_)
    (fun _ => id) fun _ => id
  rw [hp.count_toNat] at hx
  unfold Stretch at hx ⊢
  omega

theorem touches_gatherPiece (hc : c.Ready) (hp : c.GatherPlan inOff outOff count) {s d : Nat}
    (hs : s < c.world.nranks) (hd : d < c.world.nranks) :
    (gatherPiece outOff count s d c).Sat
      (c.Touches (c.MayTouch (c.gatherRanges inOff outOff count))) (fun _ => False)
      fun _ => True := by
  have hpiece := piece_le outOff.toNat count.toNat hs
  refine (touches_dma hc hd hs _ _ _).mono (fun _ h => h.mono fun x hx => .inl ?_) (fun _ => id)
    fun _ => id
  rw [hp.count_toNat, hp.piece_toNat hs] at hx
  refine ⟨(outOff.toNat, c.world.nranks * count.toNat), by simp [Comm.gatherRanges], ?_⟩
  unfold Stretch at hx ⊢
  dsimp only
  omega

theorem touches_phases (hc : c.Ready) (hp : c.GatherPlan inOff outOff count) {n : Nat}
    (hn : c.world.nranks = n) :
    ((Outcome.forRange n (fun r => snapshotInput inOff count r) c).bind
      (Outcome.forRange n fun src => Outcome.forRange n fun dst =>
        gatherPiece outOff count src dst)).Sat
      (c.Touches (c.MayTouch (c.gatherRanges inOff outOff count))) (fun _ => False)
      fun _ => True := by
  have hranges : ∀ c', c.Keeps c' → c'.MayTouch (c'.gatherRanges inOff outOff count) =
      c.MayTouch (c.gatherRanges inOff outOff count) := by
    intro c' hk
    rw [hk.mayTouch, Comm.gatherRanges, Comm.gatherRanges, hk.nranks]
  refine touches_bind (touches_forRange c fun r c' hk => ?_) fun c₁ hk₁ => ?_
  · rw [← hk.mayTouch]
    exact touches_snapshotInput (hp.keeps hk) (by rw [hk.nranks, hn]; exact r.isLt)
  · refine touches_forRange c₁ fun s c₂ hk₂ => touches_forRange c₂ fun d c' hk₃ => ?_
    have hk := (hk₁.trans hk₂).trans hk₃
    have hn' : c'.world.nranks = n := hk.nranks.trans hn
    rw [← hranges c' hk]
    exact touches_gatherPiece (hc.keeps hk) (hp.keeps hk) (by rw [hn']; exact s.isLt)
      (by rw [hn']; exact d.isLt)

theorem allgather_contained (hc : c.Ready) (hcount : count ≠ 0)
    (hfits : c.AllgatherFits inOff outOff count)
    (hin : (inOff.toNat + count.toNat) * 4 < 2 ^ 64)
    (hout : (outOff.toNat + c.world.nranks * count.toNat) * 4 < 2 ^ 64)
    (hw : ¬ c.world.Wrapped) :
    c.Contained (c.gatherRanges inOff outOff count) count
      (bvcommAllgatherF32 inOff outOff count c) := by
  have hp := allgather_plan hc hw hin hout hfits
  rw [allgather_of_fits hcount hfits, ← Outcome.bind_assoc]
  refine contained_of_sat ?_ ?_ (touches_phases hc hp rfl)
  · have hinput := hp.input
    have houtput := hp.output
    intro rg hrg
    simp only [Comm.gatherRanges, List.mem_cons, List.not_mem_nil, or_false] at hrg
    rcases hrg with rfl | rfl
    · dsimp only
      omega
    · exact houtput
  · refine (snapshots_sat hc hp).bind fun c₁ h₁ => ?_
    rw [← h₁.keeps.nranks]
    exact (gatherPieces_sat (hc.keeps h₁.keeps) (hp.keeps h₁.keeps) hcount).mono
      (fun _ _ => trivial) (fun _ => id) fun _ => id

/-- **Where the all-gather stays inside.** -/
theorem allgather_contained_iff (hc : c.Ready) :
    c.Contained (c.gatherRanges inOff outOff count) count
        (bvcommAllgatherF32 inOff outOff count c) ↔
      (count ≠ 0 → c.AllgatherFits inOff outOff count →
        (inOff.toNat + count.toNat) * 4 < 2 ^ 64 ∧
          (outOff.toNat + c.world.nranks * count.toNat) * 4 < 2 ^ 64 ∧ ¬ c.world.Wrapped) := by
  constructor
  · intro h hcount hfits
    have hinside := h
    rw [allgather_of_fits hcount hfits, ← Outcome.bind_assoc] at hinside
    have hinside := inside_of_contained hcount hinside
    have hin := range_lt_of_inside hinside (List.mem_cons_self ..)
    have hout := range_lt_of_inside hinside (List.mem_cons_of_mem _ (List.mem_singleton_self _))
    refine ⟨hin, hout, fun hw => ?_⟩
    exact not_contained_of_never (allgather_never hc hw hin hcount hfits) h
  · intro hcond
    by_cases hcount : count = 0
    · subst hcount
      rw [bvcommAllgatherF32, if_pos rfl]
      exact contained_of_idle fun _ h => absurd rfl h
    by_cases hfits : c.AllgatherFits inOff outOff count
    · obtain ⟨hin, hout, hw⟩ := hcond hcount hfits
      exact allgather_contained hc hcount hfits hin hout hw
    · rw [allgather_of_not_fits hcount hfits]
      exact contained_of_idle fun h => absurd h (by decide)

end AllGather

/-! ### The broadcast -/

section Broadcast

variable {c : Comm} (hc : c.Ready) {s d : Nat} (hs : s < c.world.nranks) (hd : d < c.world.nranks)
variable {x len : Size}

include hc hd in
/-- The region test lets an end address through that wraps around. -/
theorem regionValid_rank_iff (hx : x.toNat < c.world.windowBytes.toNat)
    (hend : x.toNat + len.toNat < 2 ^ 64) :
    c.fabric.regionValid d (c.world.base d + x) len = true ↔
      x.toNat + len.toNat ≤ c.world.windowBytes.toNat ∨
        2 ^ 64 ≤ d * 2 ^ 32 + (x.toNat + len.toNat) := by
  obtain ⟨hbase, hd64⟩ := hc.base_toNat hd
  have hlt := hc.window_toNat_lt
  have hlow := hc.not_lt_base hd (x := x) (by omega)
  have hhigh : (c.fabric.node d).info.addressLimit + 1 < c.world.base d + x + len ↔
      ¬ (x.toNat + len.toNat ≤ c.world.windowBytes.toNat ∨
        2 ^ 64 ≤ d * 2 ^ 32 + (x.toNat + len.toNat)) := by
    rw [hc.node_eq d hd, BitVec.lt_def]
    simp only [rankNode, rankInfo, ← hc.base_eq d hd, BitVec.sub_add_cancel, BitVec.toNat_add]
    omega
  rw [Fabric.regionValid, if_neg hlow, if_congr hhigh rfl rfl]
  split_ifs with h
  · exact iff_of_true rfl h
  · exact iff_of_false (by decide) h

include hc hd in
theorem lt_window_of_nonnull
    (hnull : (c.fabric.translate d (c.world.base d + x)).isNull = false) :
    x.toNat < c.world.windowBytes.toNat := by
  obtain ⟨hbase, hd64⟩ := hc.base_toNat hd
  have hlt := hc.window_toNat_lt
  have hx := x.isLt
  rw [Fabric.translate, hc.node_eq d hd] at hnull
  split_ifs at hnull with hmem hrange
  · exact absurd hnull (by decide)
  · exact absurd hnull (by decide)
  · simp only [rankNode, rankInfo, ← hc.base_eq d hd, Bool.or_eq_true, decide_eq_true_eq, not_or,
      BitVec.le_def, BitVec.lt_def, BitVec.toNat_add] at hrange
    omega

/-- A transfer between the same places of two ranks goes wrong: it starts in the windows, and its
end address wraps around in both. -/
def TransferStrays (c : Comm) (s d : Nat) (x len : Size) : Prop :=
  x.toNat < c.world.windowBytes.toNat ∧ 2 ^ 64 ≤ min s d * 2 ^ 32 + (x.toNat + len.toNat)

include hc hs hd in
theorem dma_defined (hend : x.toNat + len.toNat < 2 ^ 64) (hstray : ¬ TransferStrays c s d x len) :
    (c.dma s d (c.world.base s + x) (c.world.base d + x) len).Sat (fun _ => True) (fun _ => False)
      fun _ => False := by
  obtain ⟨hsrc, hdst, -⟩ := hc.ends s hs d hd
  suffices hdma : (fabricDma c.fabric c.heap (c.world.ch s d) (c.world.base s + x)
      (c.world.base d + x) len : CommOutcome DmaResult).Sat (fun _ => True) (fun _ => False)
      fun _ => False from hdma.bind fun _ _ => trivial
  by_cases hv : DmaValid c.fabric (c.world.ch s d) (c.world.base s + x) (c.world.base d + x) len
  · have hvalid := hv
    obtain ⟨-, -, -, hsvalid, hdvalid⟩ := hv
    rw [fabricDma_of_valid hvalid, dmaMove]
    split_ifs with hnull
    · trivial
    rw [hsrc] at hsvalid hnull ⊢
    rw [hdst] at hdvalid hnull ⊢
    rw [Bool.or_eq_true, not_or, Bool.not_eq_true, Bool.not_eq_true] at hnull
    have hx := lt_window_of_nonnull hc hs hnull.1
    rw [regionValid_rank_iff hc hs hx hend] at hsvalid
    rw [regionValid_rank_iff hc hd hx hend] at hdvalid
    have hin : x.toNat + len.toNat ≤ c.world.windowBytes.toNat := by
      by_contra hout
      exact hstray ⟨hx, by omega⟩
    rw [translate_rank hc hs hx, translate_rank hc hd hx,
      Heap.memmove_eq_ok (in_block hc hs hin) (in_block hc hd hin)]
    trivial
  · obtain ⟨ret, -, heq⟩ := fabricDma_of_not_valid (ε := Unit) (h := c.heap) hv
    rw [heq]
    trivial

include hc hs hd in
theorem dma_never (hlen : len ≠ 0) (hend : x.toNat + len.toNat < 2 ^ 64)
    (hstray : TransferStrays c s d x len) :
    (c.dma s d (c.world.base s + x) (c.world.base d + x) len).Sat (fun _ => False) (fun _ => False)
      fun _ => True := by
  obtain ⟨hx, hwrap⟩ := hstray
  obtain ⟨hsrc, hdst, hflags⟩ := hc.ends s hs d hd
  have hvalid : DmaValid c.fabric (c.world.ch s d) (c.world.base s + x) (c.world.base d + x)
      len := by
    refine ⟨hc.initialized, hlen, ?_, ?_, ?_⟩
    · rw [hflags]
      decide
    · rw [hsrc, regionValid_rank_iff hc hs hx hend]
      omega
    · rw [hdst, regionValid_rank_iff hc hd hx hend]
      omega
  have hnull : ¬ ((c.world.mem s + x.toNat).isNull || (c.world.mem d + x.toNat).isNull) = true := by
    have hsnull := hc.mem_nonnull s hs
    have hdnull := hc.mem_nonnull d hd
    simpa [Ptr.isNull] using And.intro hsnull hdnull
  have hs64 := (hc.base_toNat hs).2
  have hlt := hc.window_toNat_lt
  -- the stretch is longer than any block
  have hread : (c.heap.read (c.world.mem s + x.toNat) len.toNat : CommOutcome (List Byte)) =
      .undefined ⟨c.world.mem s + x.toNat, len.toNat⟩ := by
    refine Heap.read_of_outside ?_
    rw [Ptr.add_off, Ptr.add_block, hc.mem_off s hs, hc.mem_size s hs]
    omega
  rw [Comm.dma, fabricDma_of_valid hvalid, hsrc, hdst, translate_rank hc hs hx,
    translate_rank hc hd hx, dmaMove, if_neg hnull, Heap.memmove, hread]
  trivial

end Broadcast

section BroadcastCall

variable {c : Comm} {root : Int} {off count : Size}

/-- The tests of `bvcomm_broadcast_f32`. -/
def Comm.BroadcastFits (c : Comm) (root : Int) (off count : Size) : Prop :=
  (0 ≤ root ∧ root < c.world.nranks) ∧ (off + count) * sizeofFloat ≤ c.world.bufBytes

/-- One of the transfers goes wrong. -/
def Comm.Strays (c : Comm) (root : Nat) (off count : Size) : Prop :=
  ∃ r < c.world.nranks, r ≠ root ∧
    TransferStrays c root r (off * sizeofFloat) (count * sizeofFloat)

/-- The transfer to rank `r`. -/
def broadcastTo (root : Nat) (off count : Size) (r : Nat) (c : Comm) : CommOutcome Comm :=
  if r = root then .ok c
  else c.dma root r (c.world.base root + off * sizeofFloat) (c.world.base r + off * sizeofFloat)
    (count * sizeofFloat)

theorem broadcast_of_fits (hcount : count ≠ 0) (hfits : c.BroadcastFits root off count) :
    bvcommBroadcastF32 root off count c =
      (Outcome.forRange c.world.nranks (fun r => broadcastTo root.toNat off count r) c).bind
        fun c' => .ok (0, c') := by
  obtain ⟨⟨hlo, hhi⟩, hbuf⟩ := hfits
  rw [bvcommBroadcastF32, if_neg (by omega), if_neg hcount, if_neg (BitVec.not_lt.mpr hbuf)]
  rfl

theorem broadcast_of_not_fits (hcount : count ≠ 0) (hfits : ¬ c.BroadcastFits root off count) :
    ∃ ret, ret ≠ 0 ∧ bvcommBroadcastF32 root off count c = .ok (ret, c) := by
  rw [bvcommBroadcastF32]
  by_cases hroot : root < 0 ∨ (c.world.nranks : Int) ≤ root
  · exact ⟨-1, by decide, if_pos hroot⟩
  rw [if_neg hroot, if_neg hcount]
  refine ⟨-2, by decide, if_pos (BitVec.not_le.mp fun hbuf => hfits ?_)⟩
  exact ⟨by omega, hbuf⟩

theorem broadcast_of_empty :
    ∃ ret, bvcommBroadcastF32 root off 0 c = .ok (ret, c) := by
  rw [bvcommBroadcastF32, if_pos (rfl : (0 : Size) = 0)]
  split_ifs
  · exact ⟨-1, rfl⟩
  · exact ⟨0, rfl⟩

theorem range_toNat (hin : 4 * (off.toNat + count.toNat) < 2 ^ 64) :
    (off * sizeofFloat).toNat = 4 * off.toNat ∧ (count * sizeofFloat).toNat = 4 * count.toNat := by
  rw [BitVec.toNat_mul, BitVec.toNat_mul, sizeofFloat_toNat]
  omega

theorem Comm.Keeps.strays {c' : Comm} (h : c.Keeps c') {root : Nat} :
    c'.Strays root off count ↔ c.Strays root off count := by
  simp only [Comm.Strays, TransferStrays, h.nranks, h.windowBytes]

theorem broadcast_defined (hc : c.Ready) {root : Nat} (hroot : root < c.world.nranks)
    (hin : 4 * (off.toNat + count.toNat) < 2 ^ 64) (hstray : ¬ c.Strays root off count) :
    (Outcome.forRange c.world.nranks (fun r => broadcastTo root off count r) c).Sat (fun _ => True)
      (fun _ => False) fun _ => False := by
  obtain ⟨hoff, hlen⟩ := range_toNat hin
  refine Outcome.Sat.mono (Outcome.Sat.forRange (I := fun _ => c.Keeps) (Comm.Keeps.refl c)
    fun r c' hk => ?_) (fun _ _ => trivial) (fun _ => id) fun _ => id
  have hr : r.val < c'.world.nranks := by rw [hk.nranks]; exact r.isLt
  unfold broadcastTo
  split_ifs with hself
  · exact hk
  · have hdefined := dma_defined (hc.keeps hk) (by rwa [hk.nranks] : root < c'.world.nranks) hr
      (by omega : (off * sizeofFloat).toNat + (count * sizeofFloat).toNat < 2 ^ 64)
      fun hbad => hstray (hk.strays.mp ⟨r, hr, hself, hbad⟩)
    exact (hdefined.and (keeps_dma c' _ _ _ _ _)).mono (fun _ h => hk.trans h.2) (fun _ h => h.1)
      fun _ h => h.1

theorem broadcast_never (hc : c.Ready) {root : Nat} (hroot : root < c.world.nranks)
    (hcount : count ≠ 0) (hin : 4 * (off.toNat + count.toNat) < 2 ^ 64)
    (hstray : c.Strays root off count) :
    (Outcome.forRange c.world.nranks (fun r => broadcastTo root off count r) c).Sat (fun _ => False)
      (fun _ => False) fun _ => True := by
  obtain ⟨hoff, hlen⟩ := range_toNat hin
  obtain ⟨r, hr, hself, hbad⟩ := hstray
  have hne := mul_sizeofFloat_ne_zero hcount hlen
  refine Outcome.Sat.forRange_of_never (I := c.Keeps) ⟨r, hr⟩ (Comm.Keeps.refl c)
    (fun r' c' hk => ?_) fun c' hk => ?_
  · unfold broadcastTo
    split_ifs
    · exact hk
    · exact (keeps_dma c' _ _ _ _ _).mono (fun _ => hk.trans) (fun _ => id) fun _ => id
  · rw [broadcastTo, if_neg hself]
    refine dma_never (hc.keeps hk) (by rwa [hk.nranks]) (by rwa [hk.nranks]) hne (by omega) ?_
    unfold TransferStrays at hbad ⊢
    rwa [hk.windowBytes]

theorem touches_broadcast (hc : c.Ready) {root : Nat} (hroot : root < c.world.nranks)
    (hin : 4 * (off.toNat + count.toNat) < 2 ^ 64) :
    (Outcome.forRange c.world.nranks (fun r => broadcastTo root off count r) c).Sat
      (c.Touches (c.MayTouch [(off.toNat, count.toNat)])) (fun _ => False) fun _ => True := by
  obtain ⟨hoff, hlen⟩ := range_toNat hin
  refine touches_forRange c fun r c' hk => ?_
  have hr : r.val < c'.world.nranks := by rw [hk.nranks]; exact r.isLt
  unfold broadcastTo
  split_ifs
  · exact Comm.Touches.refl c' _
  · refine (touches_dma (hc.keeps hk) hr (by rwa [hk.nranks]) _ _ _).mono
      (fun _ h => h.mono fun x hx => .inl ?_) (fun _ => id) fun _ => id
    rw [hoff, hlen] at hx
    exact ⟨_, List.mem_singleton_self _, hx⟩

/-- **Where the broadcast stays inside.** -/
theorem broadcast_contained_iff (hc : c.Ready) :
    c.Contained [(off.toNat, count.toNat)] count (bvcommBroadcastF32 root off count c) ↔
      (count ≠ 0 → c.BroadcastFits root off count →
        (off.toNat + count.toNat) * 4 < 2 ^ 64 ∧ ¬ c.Strays root.toNat off count) := by
  constructor
  · intro h hcount hfits
    have hroot : root.toNat < c.world.nranks := by
      have hrange := hfits.1
      omega
    rw [broadcast_of_fits hcount hfits] at h
    have hsize := range_lt_of_inside (inside_of_contained hcount h) (List.mem_singleton_self _)
    refine ⟨hsize, fun hstray => not_contained_of_never ?_ h⟩
    exact (broadcast_never hc hroot hcount (by omega) hstray).bind fun _ => False.elim
  · intro hcond
    by_cases hcount : count = 0
    · subst hcount
      obtain ⟨ret, hcall⟩ : ∃ ret, bvcommBroadcastF32 root off 0 c = .ok (ret, c) :=
        broadcast_of_empty
      rw [hcall]
      exact contained_of_idle fun _ h => absurd rfl h
    by_cases hfits : c.BroadcastFits root off count
    · obtain ⟨hsize, hstray⟩ := hcond hcount hfits
      have hroot : root.toNat < c.world.nranks := by
        have hrange := hfits.1
        omega
      rw [broadcast_of_fits hcount hfits]
      exact contained_of_sat (inside_one.mpr (range_le_of_fits hsize hfits.2))
        (broadcast_defined hc hroot (by omega) hstray) (touches_broadcast hc hroot (by omega))
    · obtain ⟨ret, hret, hcall⟩ := broadcast_of_not_fits hcount hfits
      rw [hcall]
      exact contained_of_idle fun h => absurd h hret

end BroadcastCall

/-! ### The three of them -/

/-- **Containment.** In every world a program can have, and for all offsets and counts, a call of
one of the three collectives stays inside exactly when, if its tests pass, the sizes they compare
did not wrap; where it moves anything, the two sizes of the world must not have wrapped either,
which for the broadcast only shows in a transfer whose end address wraps around. -/
theorem collectives_contained_iff {add : Word → Word → Word} {c : Comm} (hlive : c.Live add)
    (root : Int) (off inOff outOff count : Size) :
    (c.Contained [(off.toNat, count.toNat)] count (bvcommAllreduceSumF32 add off count c) ↔
      (count ≠ 0 → c.AllreduceFits off count →
        (off.toNat + count.toNat) * 4 < 2 ^ 64 ∧ (c.world.nranks = 1 ∨ ¬ c.world.Wrapped))) ∧
    (c.Contained [(off.toNat, count.toNat)] count (bvcommBroadcastF32 root off count c) ↔
      (count ≠ 0 → c.BroadcastFits root off count →
        (off.toNat + count.toNat) * 4 < 2 ^ 64 ∧ ¬ c.Strays root.toNat off count)) ∧
    (c.Contained (c.gatherRanges inOff outOff count) count
        (bvcommAllgatherF32 inOff outOff count c) ↔
      (count ≠ 0 → c.AllgatherFits inOff outOff count →
        (inOff.toNat + count.toNat) * 4 < 2 ^ 64 ∧
          (outOff.toNat + c.world.nranks * count.toNat) * 4 < 2 ^ 64 ∧ ¬ c.world.Wrapped)) :=
  ⟨allreduce_contained_iff hlive.ready, broadcast_contained_iff hlive.ready,
    allgather_contained_iff hlive.ready⟩

theorem twoRanks_contained :
    ∃ c : Comm, c.world.nranks = 2 ∧
      c.Contained [(1, 3)] 3 (bvcommAllreduceSumF32 (· + ·) 1 3 c) ∧
      c.Contained (c.gatherRanges 2 1 3) 3 (bvcommAllgatherF32 2 1 3 c) := by
  obtain ⟨c, hinit, hranks, hw⟩ : ∃ c : Comm,
      bvcommInit (fun _ => true) emptyHeap 2 32 12 = .ok c ∧ c.world.nranks = 2 ∧
        ¬ c.world.Wrapped := ⟨_, rfl, by decide, by decide⟩
  have hlive : c.Live (· + ·) := .init hinit
  obtain ⟨hreduce, -, hgather⟩ := collectives_contained_iff hlive 0 1 2 1 3
  refine ⟨c, hranks, hreduce.mpr fun _ _ => ⟨by decide, .inr hw⟩, hgather.mpr fun _ _ => ?_⟩
  rw [hranks]
  exact ⟨by decide, by decide, hw⟩

/-- Element `2 ^ 62` passes as element 0, which the call then adds up. -/
theorem not_forall_contained :
    ¬ ∀ (add : Word → Word → Word) (c : Comm), c.Live add → ∀ (root : Int)
      (off inOff outOff count : Size),
      c.Contained [(off.toNat, count.toNat)] count (bvcommAllreduceSumF32 add off count c) ∧
      c.Contained [(off.toNat, count.toNat)] count (bvcommBroadcastF32 root off count c) ∧
      c.Contained (c.gatherRanges inOff outOff count) count
        (bvcommAllgatherF32 inOff outOff count c) := by
  intro h
  obtain ⟨c, hinit, hfits⟩ : ∃ c : Comm,
      bvcommInit (fun _ => true) emptyHeap 2 32 12 = .ok c ∧ c.AllreduceFits (1 <<< 62) 1 :=
    ⟨_, rfl, by decide⟩
  have hlive : c.Live (· + ·) := .init hinit
  have hcontained := (h _ c hlive 0 (1 <<< 62) 0 0 1).1
  have hsize := ((allreduce_contained_iff hlive.ready).mp hcontained (by decide) hfits).1
  exact absurd hsize (by decide)

end BradVector
