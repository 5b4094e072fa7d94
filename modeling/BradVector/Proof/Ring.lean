import BradVector.Proof.Transfer
import BradVector.Library.Collective

/-!
# Rounds of the ring

A round of the reduce-scatter sends a chunk of every rank into the next rank's inbox, and then has
every rank add its inbox to that chunk; a round of the all-gather copies instead. What a round does
to one element of every rank is one step of the walks of `Collective`, so the sum arrives
everywhere.
-/

namespace BradVector

open CSem Collective

/-- The first byte of chunk `i` in a rank's memory. -/
def chunkStart (off : Size) (cs : Nat → Size) (i : Nat) : Nat := (off.toNat + (cs i).toNat) * 4

/-- The chunks lie in the user buffer one behind the other, and each of them fits the inbox. -/
structure Plan (w : BvcommWorld) (off : Size) (cs : Nat → Size) : Prop where
  window : w.windowBytes.toNat = w.bufBytes.toNat + w.scratchBytes.toNat
  mono : ∀ i j, i ≤ j → j ≤ w.nranks → (cs i).toNat ≤ (cs j).toNat
  fits : ∀ i < w.nranks, chunkStart off cs (i + 1) ≤ w.bufBytes.toNat
  inbox : ∀ i < w.nranks,
    chunkStart off cs (i + 1) - chunkStart off cs i ≤ w.scratchBytes.toNat

theorem Plan.keeps {c c' : Comm} {off : Size} {cs : Nat → Size} (h : Plan c.world off cs)
    (hk : c.Keeps c') : Plan c'.world off cs where
  window := by rw [hk.windowBytes, hk.bufBytes, hk.scratchBytes]; exact h.window
  mono := by rw [hk.nranks]; exact h.mono
  fits := by rw [hk.nranks, hk.bufBytes]; exact h.fits
  inbox := by rw [hk.nranks, hk.scratchBytes]; exact h.inbox

section Plan

variable {w : BvcommWorld} {off : Size} {cs : Nat → Size} {i : Nat}

theorem sizeofFloat_toNat : sizeofFloat.toNat = 4 := by decide

theorem mul_sizeofFloat_ne_zero {count : Size} (hcount : count ≠ 0)
    (hlen : (count * sizeofFloat).toNat = 4 * count.toNat) : count * sizeofFloat ≠ 0 := by
  intro hzero
  rw [hzero, show (0 : Size).toNat = 0 from rfl] at hlen
  exact hcount (BitVec.eq_of_toNat_eq (show count.toNat = 0 by omega))

theorem Plan.start_mono (h : Plan w off cs) {j : Nat} (hij : i ≤ j) (hj : j ≤ w.nranks) :
    chunkStart off cs i ≤ chunkStart off cs j :=
  Nat.mul_le_mul_right 4 (Nat.add_le_add_left (h.mono i j hij hj) _)

theorem Plan.start_le (h : Plan w off cs) (hi : i < w.nranks) :
    chunkStart off cs i ≤ chunkStart off cs (i + 1) :=
  h.start_mono (Nat.le_succ i) hi

theorem Plan.start_toNat (h : Plan w off cs) (hi : i < w.nranks) :
    ((off + cs i) * sizeofFloat).toNat = chunkStart off cs i := by
  have hle := (h.start_le hi).trans (h.fits i hi)
  have hlt := w.bufBytes.isLt
  rw [chunkStart] at hle ⊢
  rw [BitVec.toNat_mul, BitVec.toNat_add, sizeofFloat_toNat]
  omega

theorem Plan.chunkLen_toNat (h : Plan w off cs) (hi : i < w.nranks) :
    (chunkLen cs i).toNat = chunkStart off cs (i + 1) - chunkStart off cs i := by
  have hle := h.fits i hi
  have hmono := h.mono i (i + 1) (Nat.le_succ i) hi
  have hlt := w.bufBytes.isLt
  rw [chunkStart] at hle
  rw [chunkLen, BitVec.toNat_mul, BitVec.toNat_sub_of_le (BitVec.le_def.mpr hmono),
    sizeofFloat_toNat, chunkStart, chunkStart]
  omega

theorem Plan.chunkLen_eq_zero (h : Plan w off cs) (hi : i < w.nranks) (hzero : chunkLen cs i = 0) :
    chunkStart off cs (i + 1) = chunkStart off cs i := by
  have hlen := h.chunkLen_toNat hi
  have hle := h.start_le hi
  rw [hzero, show (0 : Size).toNat = 0 from rfl] at hlen
  omega

/-- The number of elements of chunk `i`. -/
def chunkCount (cs : Nat → Size) (i : Nat) : Nat := (cs (i + 1)).toNat - (cs i).toNat

theorem Plan.start_succ (h : Plan w off cs) (hi : i < w.nranks) :
    chunkStart off cs (i + 1) = chunkStart off cs i + 4 * chunkCount cs i := by
  have hmono := h.mono i (i + 1) (Nat.le_succ i) hi
  rw [chunkStart, chunkStart, chunkCount]
  omega

theorem Plan.elems_toNat (h : Plan w off cs) (hi : i < w.nranks) :
    (chunkLen cs i / sizeofFloat).toNat = chunkCount cs i := by
  rw [BitVec.toNat_udiv, sizeofFloat_toNat, h.chunkLen_toNat hi, h.start_succ hi]
  omega

end Plan

/-! ### The messages of a round -/

section Round

variable {n : Nat} [NeZero n] {off : Size} {cs : Nat → Size} {c : Comm}

/-- The ranks below `k` have sent the chunks `send` names, and the user buffers are as they were. -/
structure Comm.Sent (c : Comm) (off : Size) (cs : Nat → Size) (send : Fin n → Fin n) (k : Nat)
    (c' : Comm) : Prop where
  keeps : c.Keeps c'
  user : ∀ r < n, ∀ x < c.world.bufBytes.toNat, c'.rank r x = c.rank r x
  inbox : ∀ r : Fin n, r < k → ∀ i,
    i < chunkStart off cs (send r + 1) - chunkStart off cs (send r) →
      c'.rank (r + 1 : Fin n) (c.world.bufBytes.toNat + i) =
        c.rank r (chunkStart off cs (send r) + i)

theorem sendChunk_sat (hn : c.world.nranks = n) (hc : c.Ready) (hp : Plan c.world off cs)
    (send : Fin n → Fin n) (r : Fin n) {c' : Comm} (h : c.Sent off cs send r c') :
    (sendChunk off cs n r (send r) c').Sat (c.Sent off cs send (r + 1)) (fun _ => False)
      fun _ => False := by
  have hc' := hc.keeps h.keeps
  have hp' := hp.keeps h.keeps
  have hn' : c'.world.nranks = n := h.keeps.nranks.trans hn
  have hrank : ∀ q : Fin n, q.val < c'.world.nranks := fun q => by rw [hn']; exact q.isLt
  have hlen := hp'.chunkLen_toNat (hrank (send r))
  unfold sendChunk
  split_ifs with hzero
  · have hempty := hp'.chunkLen_eq_zero (hrank (send r)) hzero
    refine ⟨h.keeps, h.user, fun r' hr' i hi => ?_⟩
    rcases Nat.lt_succ_iff_lt_or_eq.mp hr' with hlt | heq
    · exact h.inbox r' hlt i hi
    · rw [Fin.ext heq, hempty, Nat.sub_self] at hi
      exact absurd hi (Nat.not_lt_zero i)
  · have hstart := hp'.start_toNat (hrank (send r))
    have hfits := hp'.fits _ (hrank (send r))
    have hinbox := hp'.inbox _ (hrank (send r))
    have hle := hp'.start_le (hrank (send r))
    have hwindow := hp'.window
    rw [← succ_val r]
    refine (dma_sat hc' (hrank r) (hrank (r + 1)) hzero (by omega) (by omega)).mono
      (fun c'' hw => ?_) (fun _ => id) fun _ => id
    rw [hstart, hlen, h.keeps.bufBytes] at hw
    refine ⟨h.keeps.trans hw.keeps, fun q hq x hx => ?_, fun r' hr' i hi => ?_⟩
    · rw [← h.user q hq x hx]
      by_cases hself : q = (r + 1 : Fin n).val
      · rw [hself, hw.self, writeBytes_of_disjoint (.inl hx)]
      · rw [hw.other q (hn' ▸ hq) hself]
    · rcases Nat.lt_succ_iff_lt_or_eq.mp hr' with hlt | heq
      · have hne : (r' + 1 : Fin n).val ≠ (r + 1 : Fin n).val := by
          intro heq
          rw [add_right_cancel (Fin.ext heq)] at hlt
          exact absurd hlt (Nat.lt_irrefl _)
        rw [hw.other _ (hrank (r' + 1)) hne, h.inbox r' hlt i hi]
      · obtain rfl : r' = r := Fin.ext heq
        have hbyte : chunkStart off cs (send r') + i < c.world.bufBytes.toNat := by
          rw [← h.keeps.bufBytes]
          omega
        rw [hw.self, writeBytes_readBytes_add hi, h.user _ r'.isLt _ hbyte]

/-- **The messages of a round.** Every rank's chunk arrives in the next rank's inbox. -/
theorem sendChunks_sat (hn : c.world.nranks = n) (hc : c.Ready) (hp : Plan c.world off cs)
    (send : Fin n → Fin n) :
    (Outcome.forRange n (fun r => sendChunk off cs n r (send r)) c).Sat (c.Sent off cs send n)
      (fun _ => False) fun _ => False :=
  Outcome.Sat.forRange (I := fun k => c.Sent off cs send k)
    ⟨Comm.Keeps.refl c, fun _ _ _ _ => rfl, fun r hr => absurd hr (Nat.not_lt_zero r)⟩
    fun r _ h => sendChunk_sat hn hc hp send r h

/-! ### What the ranks do with them -/

/-- A copied stretch is one combined with its source by forgetting what was there. -/
theorem Comm.Wrote.added {c' : Comm} {r dst inbox k : Nat}
    (h : c.Wrote r dst (readBytes (c.rank r) inbox (4 * k)) c') :
    c.Added (fun _ b => b) r dst inbox k c' where
  keeps := h.keeps
  words j hj := by
    rw [h.self]
    refine wordAt_congr fun i hi => ?_
    rw [Nat.add_assoc, writeBytes_readBytes_add (by omega), Nat.add_assoc]
  outside x hx := by rw [h.self, writeBytes_of_disjoint (by rw [readBytes_length]; omega)]
  other := h.other

theorem Plan.added_of_empty {op : Word → Word → Word} {inbox r j : Nat}
    (hp : Plan c.world off cs) (hj : j < c.world.nranks) (hzero : chunkLen cs j = 0) :
    c.Added op r (chunkStart off cs j) inbox (chunkCount cs j) c := by
  have hempty := hp.chunkLen_eq_zero hj hzero
  have hsucc := hp.start_succ hj
  have hcount : chunkCount cs j = 0 := by omega
  rw [hcount]
  exact ⟨Comm.Keeps.refl c, fun i hi => absurd hi (Nat.not_lt_zero i), fun _ _ => rfl,
    fun _ _ _ => rfl⟩

theorem addChunk_sat (add : Word → Word → Word) (hc : c.Ready) (hp : Plan c.world off cs)
    {r j : Nat} (hr : r < c.world.nranks) (hj : j < c.world.nranks) :
    (addChunk add off cs r j c).Sat
      (c.Added add r (chunkStart off cs j) c.world.bufBytes.toNat (chunkCount cs j))
        (fun _ => False)
      fun _ => False := by
  have hfits := hp.fits j hj
  have hinbox := hp.inbox j hj
  have hsucc := hp.start_succ hj
  have hwindow := hp.window
  unfold addChunk
  split_ifs with hzero
  · exact hp.added_of_empty hj hzero
  · dsimp only
    rw [hp.start_toNat hj, hp.elems_toNat hj]
    exact addElems_sat add hc hr (by omega) (by omega)

theorem copyChunk_sat (hc : c.Ready) (hp : Plan c.world off cs) {r j : Nat}
    (hr : r < c.world.nranks) (hj : j < c.world.nranks) :
    (copyChunk off cs r j c).Sat
      (c.Added (fun _ b => b) r (chunkStart off cs j) c.world.bufBytes.toNat (chunkCount cs j))
      (fun _ => False) fun _ => False := by
  have hfits := hp.fits j hj
  have hinbox := hp.inbox j hj
  have hsucc := hp.start_succ hj
  have hwindow := hp.window
  have hlen : (chunkLen cs j).toNat = 4 * chunkCount cs j := by
    rw [hp.chunkLen_toNat hj]
    omega
  unfold copyChunk
  split_ifs with hzero
  · exact hp.added_of_empty hj hzero
  · rw [hp.start_toNat hj, hlen]
    exact (memcpy_rank_sat hc hr (by omega) (by omega) (by omega)).mono (fun _ h => h.added)
      (fun _ => id) fun _ => id

/-- The ranks below `k` have combined the chunks `recv` names with their inboxes. -/
structure Comm.Combined (c : Comm) (op : Word → Word → Word) (off : Size) (cs : Nat → Size)
    (recv : Fin n → Fin n) (k : Nat) (c' : Comm) : Prop where
  keeps : c.Keeps c'
  words : ∀ r : Fin n, r < k → ∀ i < chunkCount cs (recv r),
    wordAt (c'.rank r) (chunkStart off cs (recv r) + 4 * i) =
      op (wordAt (c.rank r) (chunkStart off cs (recv r) + 4 * i))
        (wordAt (c.rank r) (c.world.bufBytes.toNat + 4 * i))
  outside : ∀ r : Fin n, ∀ x, x < chunkStart off cs (recv r) ∨
    chunkStart off cs (recv r) + 4 * chunkCount cs (recv r) ≤ x → c'.rank r x = c.rank r x
  rest : ∀ r : Fin n, k ≤ r → c'.rank r = c.rank r

omit [NeZero n] in
theorem combineChunks_sat {op : Word → Word → Word} (recv : Fin n → Fin n)
    {body : Fin n → Comm → CommOutcome Comm} (hn : c.world.nranks = n)
    (hbody : ∀ r c', c.Keeps c' → (body r c').Sat
      (c'.Added op r (chunkStart off cs (recv r)) c.world.bufBytes.toNat (chunkCount cs (recv r)))
      (fun _ => False) fun _ => False) :
    (Outcome.forRange n body c).Sat (c.Combined op off cs recv n) (fun _ => False)
      fun _ => False := by
  refine Outcome.Sat.forRange (I := fun k => c.Combined op off cs recv k)
    ⟨Comm.Keeps.refl c, fun r hr => absurd hr (Nat.not_lt_zero r), fun _ _ _ => rfl,
      fun _ _ => rfl⟩ fun k c' h => (hbody k c' h.keeps).mono (fun c'' ha => ?_) (fun _ => id)
      fun _ => id
  have hother : ∀ r : Fin n, r ≠ k → c''.rank r = c'.rank r := fun r hne =>
    ha.other r (by rw [h.keeps.nranks, hn]; exact r.isLt) fun heq => hne (Fin.ext heq)
  refine ⟨h.keeps.trans ha.keeps, fun r hr i hi => ?_, fun r x hx => ?_, fun r hr => ?_⟩
  · rcases Nat.lt_succ_iff_lt_or_eq.mp hr with hlt | heq
    · rw [hother r (fun heq => absurd (heq ▸ hlt) (Nat.lt_irrefl _)), h.words r hlt i hi]
    · obtain rfl : r = k := Fin.ext heq
      rw [ha.words i hi, h.rest r le_rfl]
  · by_cases heq : r = k
    · subst heq
      rw [ha.outside x hx, h.outside r x hx]
    · rw [hother r heq, h.outside r x hx]
  · rw [hother r (fun heq => by rw [heq] at hr; omega), h.rest r (by omega)]

/-- Element `e` of rank `r`'s user buffer. -/
def Comm.elem (c : Comm) (r e : Nat) : Word := wordAt (c.rank r) (4 * e)

/-- The round has combined the chunks `recv` names with those of the ranks before, and left the rest
of the user buffers alone. -/
structure Comm.Stepped (c : Comm) (op : Word → Word → Word) (off : Size) (cs : Nat → Size)
    (recv : Fin n → Fin n) (c' : Comm) : Prop where
  keeps : c.Keeps c'
  elems : ∀ (p : Fin n) e, (cs p).toNat ≤ e → e < (cs (p + 1)).toNat → ∀ r : Fin n,
    c'.elem r (off.toNat + e) =
      if recv r = p then op (c.elem r (off.toNat + e)) (c.elem (r - 1 : Fin n) (off.toNat + e))
      else c.elem r (off.toNat + e)
  outside : ∀ r : Fin n, ∀ x < c.world.bufBytes.toNat,
    x < chunkStart off cs 0 ∨ chunkStart off cs n ≤ x → c'.rank r x = c.rank r x

theorem Comm.Combined.stepped {op : Word → Word → Word} {send recv : Fin n → Fin n} {c₁ c₂ : Comm}
    (hn : c.world.nranks = n) (hp : Plan c.world off cs) (hpair : ∀ r, send (r - 1) = recv r)
    (h₁ : c.Sent off cs send n c₁) (h₂ : c₁.Combined op off cs recv n c₂) :
    c.Stepped op off cs recv c₂ where
  keeps := h₁.keeps.trans h₂.keeps
  elems p e hlo hhi r := by
    have hrank : ∀ q : Fin n, q.val < c.world.nranks := fun q => by rw [hn]; exact q.isLt
    have hfits := hp.fits p (hrank p)
    have hsucc := hp.start_succ (hrank p)
    have helem : 4 * (off.toNat + e) = chunkStart off cs p + 4 * (e - (cs p).toNat) := by
      rw [chunkStart]
      omega
    have hcount : e - (cs p).toNat < chunkCount cs p := by
      rw [chunkCount]
      omega
    have huser : ∀ q : Fin n, wordAt (c₁.rank q) (4 * (off.toNat + e)) =
        wordAt (c.rank q) (4 * (off.toNat + e)) := fun q =>
      wordAt_congr fun i hi => h₁.user q q.isLt _ (by omega)
    simp only [Comm.elem]
    split_ifs with hrecv
    · have hwords := h₂.words r r.isLt (e - (cs p).toNat) (by rwa [hrecv])
      rw [hrecv, ← helem, huser r] at hwords
      rw [hwords]
      congr 1
      have hsent := h₁.inbox (r - 1) (r - 1).isLt
      rw [hpair r, hrecv, sub_add_cancel] at hsent
      refine wordAt_congr fun i hi => ?_
      rw [h₁.keeps.bufBytes, Nat.add_assoc, hsent _ (by omega), helem, Nat.add_assoc]
    · have hapart : (recv r).val < p.val ∨ p.val < (recv r).val := by
        rcases Nat.lt_trichotomy (recv r).val p.val with hlt | heq | hgt
        · exact .inl hlt
        · exact absurd (Fin.ext heq) hrecv
        · exact .inr hgt
      have hsucc' := hp.start_succ (hrank (recv r))
      rw [← huser r]
      refine wordAt_congr fun i hi => h₂.outside r _ ?_
      rcases hapart with hlt | hgt
      · have hle : chunkStart off cs ((recv r).val + 1) ≤ chunkStart off cs p :=
          hp.start_mono hlt (Nat.le_of_lt (hrank p))
        omega
      · have hle : chunkStart off cs (p.val + 1) ≤ chunkStart off cs (recv r) :=
          hp.start_mono hgt (Nat.le_of_lt (hrank (recv r)))
        omega
  outside r x hx hout := by
    have hrank : (recv r).val < c.world.nranks := by rw [hn]; exact (recv r).isLt
    have hsucc := hp.start_succ hrank
    have hlo := hp.start_mono (Nat.zero_le (recv r).val) (Nat.le_of_lt hrank)
    have hhi : chunkStart off cs ((recv r).val + 1) ≤ chunkStart off cs n :=
      hp.start_mono (by omega) (Nat.le_of_eq hn.symm)
    rw [h₂.outside r x (by omega), h₁.user r r.isLt x hx]

theorem round_sat {op : Word → Word → Word} (send recv : Fin n → Fin n)
    (body : Fin n → Comm → CommOutcome Comm) (hn : c.world.nranks = n) (hc : c.Ready)
    (hp : Plan c.world off cs) (hpair : ∀ r, send (r - 1) = recv r)
    (hbody : ∀ r c', c'.world.nranks = n → c'.Ready → Plan c'.world off cs → (body r c').Sat
      (c'.Added op r (chunkStart off cs (recv r)) c'.world.bufBytes.toNat (chunkCount cs (recv r)))
      (fun _ => False) fun _ => False) :
    ((Outcome.forRange n (fun r => sendChunk off cs n r (send r)) c).bind
      (Outcome.forRange n body)).Sat (c.Stepped op off cs recv) (fun _ => False)
      fun _ => False := by
  refine (sendChunks_sat hn hc hp send).bind fun c₁ h₁ => ?_
  have hn₁ : c₁.world.nranks = n := h₁.keeps.nranks.trans hn
  refine (combineChunks_sat recv hn₁ fun r c' hk => ?_).mono
    (fun c₂ h₂ => h₂.stepped hn hp hpair h₁) (fun _ => id) fun _ => id
  rw [← hk.bufBytes]
  exact hbody r c' (hk.nranks.trans hn₁) ((hc.keeps h₁.keeps).keeps hk)
    ((hp.keeps h₁.keeps).keeps hk)

/-- **A round of the reduce-scatter.** -/
theorem reduceScatterRound_sat (add : Word → Word → Word) (hn : c.world.nranks = n) (hc : c.Ready)
    (hp : Plan c.world off cs) {s : Nat} (hs : s + 1 < n) :
    (reduceScatterRound add off cs n s c).Sat
      (c.Stepped add off cs fun r : Fin n => r - Fin.ofNat n s - 1) (fun _ => False)
      fun _ => False := by
  have hround := round_sat (fun r => r - Fin.ofNat n s) (fun r => r - Fin.ofNat n s - 1)
    (fun r => addChunk add off cs r (r - Fin.ofNat n s - 1 : Fin n)) hn hc hp
    (fun r => sub_right_comm _ _ _) fun r c' hn' hc' hp' =>
      addChunk_sat add hc' hp' (hn' ▸ r.isLt) (by rw [hn']; exact Fin.isLt _)
  simp only [sub_ofNat_val _ (Nat.lt_of_succ_lt hs), sub_ofNat_sub_one_val _ hs] at hround
  exact hround

/-- **A round of the all-gather.** -/
theorem allGatherRound_sat (hn : c.world.nranks = n) (hc : c.Ready) (hp : Plan c.world off cs)
    {s : Nat} (hs : s < n) :
    (allGatherRound off cs n s c).Sat
      (c.Stepped (fun _ b => b) off cs fun r : Fin n => r - Fin.ofNat n s) (fun _ => False)
      fun _ => False := by
  have hround := round_sat (fun r => r - Fin.ofNat n s + 1) (fun r => r - Fin.ofNat n s)
    (fun r => copyChunk off cs r (r - Fin.ofNat n s : Fin n)) hn hc hp
    (fun r => by rw [sub_right_comm, sub_add_cancel]) fun r c' hn' hc' hp' =>
      copyChunk_sat hc' hp' (hn' ▸ r.isLt) (by rw [hn']; exact Fin.isLt _)
  simp only [sub_ofNat_val _ hs, sub_ofNat_add_one_val _ hs] at hround
  exact hround

/-! ### All rounds -/

/-- Every element of the user buffers has gone through its chunk's `walk`, and the bytes outside the
chunks are as they were. -/
structure Comm.Walked (c : Comm) (off : Size) (cs : Nat → Size)
    (walk : Fin n → (Fin n → Word) → Fin n → Word) (c' : Comm) : Prop where
  keeps : c.Keeps c'
  elems : ∀ (p : Fin n) e, (cs p).toNat ≤ e → e < (cs (p + 1)).toNat → ∀ r : Fin n,
    c'.elem r (off.toNat + e) = walk p (fun q => c.elem q (off.toNat + e)) r
  outside : ∀ r : Fin n, ∀ x < c.world.bufBytes.toNat,
    x < chunkStart off cs 0 ∨ chunkStart off cs n ≤ x → c'.rank r x = c.rank r x

theorem Comm.Walked.step {op : Word → Word → Word} {recv : Fin n → Fin n}
    {walk : Fin n → (Fin n → Word) → Fin n → Word} {c₁ c₂ : Comm} (h₁ : c.Walked off cs walk c₁)
    (h₂ : c₁.Stepped op off cs recv c₂) :
    c.Walked off cs (fun p v r =>
      if recv r = p then op (walk p v r) (walk p v (r - 1)) else walk p v r) c₂ where
  keeps := h₁.keeps.trans h₂.keeps
  elems p e hlo hhi r := by
    rw [h₂.elems p e hlo hhi r, h₁.elems p e hlo hhi r, h₁.elems p e hlo hhi (r - 1)]
  outside r x hx hout := by
    rw [h₂.outside r x (by rwa [h₁.keeps.bufBytes]) hout, h₁.outside r x hx hout]

/-- **The rounds of the all-reduce.** Every element goes through both walks of its chunk. -/
theorem allRounds_sat (add : Word → Word → Word) (hn : c.world.nranks = n) (hc : c.Ready)
    (hp : Plan c.world off cs) :
    ((Outcome.forRange (n - 1) (fun s => reduceScatterRound add off cs n s) c).bind
      (Outcome.forRange (n - 1) fun s => allGatherRound off cs n s)).Sat
      (c.Walked off cs fun (p : Fin n) v => allGather p (reduceScatter add p v (n - 1)) (n - 1))
      (fun _ => False) fun _ => False := by
  have hreduce : (Outcome.forRange (n - 1) (fun s => reduceScatterRound add off cs n s) c).Sat
      (c.Walked off cs fun (p : Fin n) v => reduceScatter add p v (n - 1)) (fun _ => False)
      fun _ => False := by
    refine Outcome.Sat.forRange
      (I := fun s => c.Walked off cs fun (p : Fin n) v => reduceScatter add p v s)
      ?_ fun s c' h => ?_
    · exact ⟨Comm.Keeps.refl c, fun _ _ _ _ _ => rfl, fun _ _ _ _ => rfl⟩
    exact (reduceScatterRound_sat add (h.keeps.nranks.trans hn) (hc.keeps h.keeps)
      (hp.keeps h.keeps) (by omega)).mono (fun _ h' => h.step h') (fun _ => id) fun _ => id
  refine hreduce.bind fun c₁ h₁ => ?_
  refine Outcome.Sat.forRange
    (I := fun s => c.Walked off cs fun (p : Fin n) v =>
      allGather p (reduceScatter add p v (n - 1)) s) h₁ fun s c' h => ?_
  exact (allGatherRound_sat (h.keeps.nranks.trans hn) (hc.keeps h.keeps)
    (hp.keeps h.keeps) (by omega)).mono (fun _ h' => h.step h') (fun _ => id) fun _ => id

end Round

end BradVector
