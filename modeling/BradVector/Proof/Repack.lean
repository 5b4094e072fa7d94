import BradVector.Proof.RoundTrip

/-!
# Saving a loaded container

An unpacked image has no string pool: its constants are a view that starts behind the names and is
as long as the names and the constants together. `bvbc_pack` copies that view where the names stood,
so the container it writes is the one that was loaded only where the names and the constants happen
to be what stands behind the names.
-/

namespace BradVector

open CSem

/-! ### The room a pack takes -/

section Room

variable {img : BvbcImage} {n off v : Nat} {buf bs : List Byte}

theorem bufWrite_room (hbuf : buf.length = n) :
    (bufWrite off bs buf).Sat (fun out => out.length = n ∧ off + bs.length ≤ n) (fun _ => True)
      (fun _ => True) := by
  unfold bufWrite
  split_ifs with hroom
  · exact ⟨(writeAt_length hroom).trans hbuf, hbuf ▸ hroom⟩
  · trivial

theorem wr_room (hbuf : buf.length = n) :
    (bufWrite off bs buf).Sat (fun out => out.length = n) (fun _ => True) (fun _ => True) :=
  (bufWrite_room hbuf).mono (fun _ h => h.1) (fun _ => id) (fun _ => id)

theorem packHeader_room (hbuf : buf.length = n) :
    (packHeader img buf).Sat (fun out => out.length = n) (fun _ => True) (fun _ => True) := by
  unfold packHeader
  refine (wr_room hbuf).bind fun _ h => ?_
  refine (wr_room h).bind fun _ h => ?_
  refine (wr_room h).bind fun _ h => ?_
  refine (wr_room h).bind fun _ h => ?_
  refine (wr_room h).bind fun _ h => ?_
  refine (wr_room h).bind fun _ h => ?_
  exact wr_room h

theorem packKernel_room (i : Fin img.kernels.length) (hbuf : buf.length = n) :
    (packKernel img i buf).Sat (fun out => out.length = n) (fun _ => True) (fun _ => True) := by
  unfold packKernel
  refine (wr_room hbuf).bind fun _ h => ?_
  refine (wr_room h).bind fun _ h => ?_
  refine (wr_room h).bind fun _ h => ?_
  exact wr_room h

theorem bvbcPack_room (img : BvbcImage) (buf : List Byte) :
    (bvbcPack img buf).Sat (fun _ => img.constBlob.off + img.nconst ≤ img.constBlob.obj.length ∧
      packedSize img ≤ buf.length) (fun _ => True) (fun _ => True) := by
  unfold bvbcPack
  split_ifs with hcap
  · trivial
  refine (packHeader_room rfl).bind fun buf₁ h₁ => ?_
  refine Outcome.Sat.bind (Outcome.Sat.forRange (I := fun _ out => out.length = buf.length) h₁
    fun i _ h => packKernel_room i h) fun buf₂ h₂ => ?_
  refine (wr_room h₂).bind fun buf₃ h₃ => ?_
  unfold BytePtr.read
  split_ifs with hread
  · rw [Outcome.bind_eq_bind, Outcome.ok_bind]
    apply Outcome.Sat.bind (bufWrite_room h₃)
    rintro buf₄ ⟨h₄, hconsts⟩
    have hconsts : bvbcHeaderSize + kernelTableSize img + img.stringPool.length + img.nconst ≤
        buf.length := by
      have hlen : (constBytes img).length = img.nconst := constBytes_length hread
      rw [constBytes] at hlen
      rwa [hlen] at hconsts
    -- after `i` words there is room for `i` words
    refine Outcome.Sat.mono (Outcome.Sat.forRange (I := fun i out => out.length = buf.length ∧
      bvbcHeaderSize + kernelTableSize img + img.stringPool.length + img.nconst + i * insnSize ≤
        buf.length) ⟨h₄, by simpa using hconsts⟩ fun i out hout => ?_)
      (fun _ h => ⟨hread, h.2⟩) (fun _ => id) (fun _ => id)
    refine (bufWrite_room hout.1).mono (fun _ h => ⟨h.1, ?_⟩) (fun _ => id) (fun _ => id)
    have hroom := h.2
    rw [toLE_length] at hroom
    simp only [insnSize] at hroom ⊢
    omega
  · trivial

theorem packed_prefix_of_bvbcPack {out : List Byte} (hpack : bvbcPack img buf = .ok out) :
    packedSize img ≤ buf.length ∧ out.take (packedSize img) = packed img := by
  obtain ⟨hread, hfits⟩ := (bvbcPack_room img buf).of_eq_ok hpack
  obtain ⟨_, rest, rfl⟩ := (bvbcPack_sat hread hfits).of_eq_ok hpack
  exact ⟨hfits, by rw [← packed_length hread, List.take_left]⟩

end Room

/-! ### The image of a packed image -/

section Reloaded

variable {img : BvbcImage}

theorem headerBytes_reloaded : headerBytes img.reloaded = headerBytes img := by
  simp [headerBytes, BvbcImage.reloaded, unpacked]

theorem kernelNameOff_reloaded (i : Nat) : kernelNameOff img.reloaded i = kernelNameOff img i := by
  simp [kernelNameOff, BvbcImage.reloaded, BvbcKernel.reloaded, ← List.map_take,
    Function.comp_def]

/-- The entry offsets are the same 32 bits. -/
theorem kernelBytes_reloaded (noff : Nat) (k : BvbcKernel) :
    kernelBytes noff k.reloaded = kernelBytes noff k := by
  have hentry : toLE 4 (k.reloaded.entry.toNat * insnSize) = toLE 4 (k.entry.toNat * insnSize) := by
    rw [k.reloaded_entry]
    exact toLE_mod 4 _
  rw [kernelBytes, kernelBytes, hentry]
  rfl

theorem tableBytes_reloaded :
    tableBytes img.reloaded img.reloaded.kernels.length = tableBytes img img.kernels.length := by
  have hlen : img.reloaded.kernels.length = img.kernels.length := List.length_map _
  rw [hlen]
  refine List.flatMap_congr fun i hi => ?_
  have hi : i < img.kernels.length := List.mem_range.mp hi
  have hget : img.reloaded.kernels.getD i ⟨[], 0, 0⟩ =
      (img.kernels.getD i ⟨[], 0, 0⟩).reloaded := by
    simp [BvbcImage.reloaded, hi]
  rw [kernelNameOff_reloaded, hget, kernelBytes_reloaded]

theorem BvbcImage.WellFormed.insnBytes_reloaded (h : img.WellFormed) :
    insnBytes img.reloaded img.reloaded.ninsn = insnBytes img img.ninsn := by
  refine List.flatMap_congr fun i hi => ?_
  have hword : img.reloaded.insn i = img.insn i := h.insn_unpacked (List.mem_range.mp hi)
  rw [hword]

/-- The view of the constants runs over the constants and on into the instructions. -/
theorem constBytes_reloaded :
    constBytes img.reloaded = (constBytes img ++ insnBytes img img.ninsn).take
      (img.stringPool.length + img.nconst) := by
  have hfront : (headerBytes img ++ tableBytes img img.kernels.length ++ img.stringPool).length =
      bvbcHeaderSize + 16 * img.kernels.length + img.stringPool.length := by
    simp [Nat.add_assoc]
  have hdrop : (packed img).drop
      (bvbcHeaderSize + 16 * img.kernels.length + img.stringPool.length) =
        constBytes img ++ insnBytes img img.ninsn := by
    rw [← hfront, packed, List.append_assoc _ (constBytes img), List.drop_left]
  exact congrArg (List.take _) hdrop

/-- Only the constant region can come out different. -/
theorem BvbcImage.WellFormed.packed_reloaded_iff (h : img.WellFormed) :
    packed img.reloaded = packed img ↔
      constBytes img.reloaded = img.stringPool ++ constBytes img := by
  have hpool : img.reloaded.stringPool = [] := rfl
  rw [packed, packed, headerBytes_reloaded, tableBytes_reloaded, h.insnBytes_reloaded, hpool,
    List.append_nil, List.append_left_inj, List.append_assoc _ img.stringPool,
    List.append_right_inj]

end Reloaded

/-! ### Loading and saving -/

/-- Every container packed from the image is the one that loading it and saving it again gives. The
capacities are of type `size_t`. -/
def BvbcImage.Repacks (img : BvbcImage) : Prop :=
  ∀ buf out, buf.length < 2 ^ 64 → bvbcPack img buf = .ok out →
    ∃ img', bvbcUnpack (out.take (bvbcSerializeSize img)) = .ok img' ∧
      ∀ buf', buf'.length < 2 ^ 64 → bvbcSerializeSize img' ≤ buf'.length →
        ∃ out', bvbcPack img' buf' = .ok out' ∧
          out'.take (bvbcSerializeSize img') = out.take (bvbcSerializeSize img)

/-- The names and the constants together are what stands behind the names. -/
def BvbcImage.NamesRecur (img : BvbcImage) : Prop :=
  img.stringPool ++ constBytes img <+: constBytes img ++ insnBytes img img.ninsn

section Repacks

variable {img : BvbcImage}

theorem BvbcImage.WellFormed.namesRecur_iff (h : img.WellFormed) :
    img.NamesRecur ↔ constBytes img.reloaded = img.stringPool ++ constBytes img := by
  have hlen : (img.stringPool ++ constBytes img).length = img.stringPool.length + img.nconst := by
    rw [List.length_append, constBytes_length h.consts]
  rw [BvbcImage.NamesRecur, List.prefix_iff_eq_take, hlen, constBytes_reloaded]
  exact eq_comm

/-- The sizes of the two images agree once the constant region has a 32-bit size. -/
theorem packedSize_reloaded : packedSize img.reloaded = packedSize img := by
  simp [packedSize, BvbcImage.reloaded, unpacked, Nat.add_assoc]

theorem bvbcSerializeSize_of_small (hsize : packedSize img < 2 ^ 64) :
    bvbcSerializeSize img = packedSize img := Nat.mod_eq_of_lt hsize

/-- An unpacked image has no string pool. -/
theorem bvbcUnpack_stringPool {buf : List Byte} {img' : BvbcImage}
    (hunpack : bvbcUnpack buf = .ok img') : img'.stringPool = [] := by
  unfold bvbcUnpack at hunpack
  split_ifs at hunpack
  simp only [Outcome.bind_eq_bind, Outcome.bind_eq_ok_iff] at hunpack
  obtain ⟨magic, -, hunpack⟩ := hunpack
  split_ifs at hunpack
  simp only [Outcome.bind_eq_ok_iff] at hunpack
  obtain ⟨ver, -, nkern, -, nconst, -, ninsn, -, hunpack⟩ := hunpack
  split_ifs at hunpack
  obtain ⟨kernels, -, hunpack⟩ := Outcome.bind_eq_ok_iff.mp hunpack
  split_ifs at hunpack
  cases hunpack
  rfl

theorem BvbcImage.WellFormed.repacks_of_namesRecur (h : img.WellFormed)
    (hconst : img.stringPool.length + img.nconst < 2 ^ 32) (hrecur : img.NamesRecur) :
    img.Repacks := by
  have hsize : packedSize img < 2 ^ 64 := h.packedSize_lt (by omega)
  have hsame : packed img.reloaded = packed img :=
    h.packed_reloaded_iff.mpr (h.namesRecur_iff.mp hrecur)
  -- the view of the constants ends before the container does
  have hread : img.reloaded.constBlob.off + img.reloaded.nconst ≤
      img.reloaded.constBlob.obj.length := by
    have hlen := hrecur.length_le
    simp only [List.length_append, constBytes_length h.consts, insnBytes_length] at hlen
    show bvbcHeaderSize + 16 * img.kernels.length + img.stringPool.length +
      (img.stringPool.length + img.nconst) ≤ (packed img).length
    rw [packed_length h.consts, packedSize]
    omega
  intro buf out _ hpack
  obtain ⟨_, hout⟩ := packed_prefix_of_bvbcPack hpack
  rw [bvbcSerializeSize_of_small hsize, hout]
  refine ⟨img.reloaded, h.bvbcUnpack_packed hconst, fun buf' _ hcap => ?_⟩
  rw [bvbcSerializeSize_of_small (packedSize_reloaded.trans_lt hsize)] at hcap ⊢
  obtain ⟨out', hout', _⟩ := (bvbcPack_sat hread hcap).exists_ok
  exact ⟨out', hout', (packed_prefix_of_bvbcPack hout').2.trans hsame⟩

theorem BvbcImage.WellFormed.namesRecur_of_repacks (h : img.WellFormed)
    (hsize : packedSize img < 2 ^ 64) (hrepacks : img.Repacks) :
    img.stringPool.length + img.nconst < 2 ^ 32 ∧ img.NamesRecur := by
  have hlen : (List.replicate (packedSize img) (0 : Byte)).length = packedSize img :=
    List.length_replicate
  have hpack := h.bvbcPack_eq (hlen.trans (bvbcSerializeSize_of_small hsize).symm) hsize
  obtain ⟨img', hunpack, hsave⟩ := hrepacks _ _ (hlen.trans_lt hsize) hpack
  have hfile : (packed img).take (bvbcSerializeSize img) = packed img := by
    rw [bvbcSerializeSize_of_small hsize, ← packed_length h.consts, List.take_length]
  rw [hfile] at hunpack hsave
  have hsize' : bvbcSerializeSize img' < 2 ^ 64 := Nat.mod_lt _ (by decide)
  obtain ⟨out', hpack', hsame⟩ := hsave (List.replicate (bvbcSerializeSize img') 0)
    (by rwa [List.length_replicate]) List.length_replicate.ge
  have hfits := (packed_prefix_of_bvbcPack hpack').1
  rw [List.length_replicate] at hfits
  -- the saved image is no shorter, so its 32-bit count of constants did not wrap
  have hconst : img.stringPool.length + img.nconst < 2 ^ 32 := by
    have hlen : packedSize img ≤ bvbcSerializeSize img' := by
      rw [← packed_length h.consts, ← hsame]
      exact List.length_take_le _ _
    have hloaded := (bvbcUnpack_sat _).of_eq_ok hunpack
    have hsum : bvbcSerializeSize img' ≤ packedSize img' := Nat.mod_le _ _
    have hkern : img'.kernels.length ≤ img.kernels.length := by
      rw [hloaded.kernels, headerFields_packed.1]
      exact Nat.mod_le _ _
    have hninsn : img'.ninsn ≤ img.ninsn := by
      rw [hloaded.ninsn, headerFields_packed.2.2]
      exact Nat.mod_le _ _
    have hnconst : img'.nconst = (img.stringPool.length + img.nconst) % 2 ^ 32 := by
      rw [hloaded.nconst, headerFields_packed.2.1]
    rw [packedSize, bvbcUnpack_stringPool hunpack] at hsum
    simp only [packedSize, List.length_nil, insnSize] at hlen hsum
    omega
  refine ⟨hconst, h.namesRecur_iff.mpr (h.packed_reloaded_iff.mp ?_)⟩
  obtain rfl : img.reloaded = img' :=
    Outcome.ok.inj ((h.bvbcUnpack_packed hconst).symm.trans hunpack)
  rw [bvbcSerializeSize_of_small (packedSize_reloaded.trans_lt hsize)] at hsame
  exact (packed_prefix_of_bvbcPack hpack').2.symm.trans hsame

end Repacks

/-- **Saving what was loaded.** Where its size does not wrap, an image built in memory is saved
again as it was exactly when its constant region has a 32-bit size and the names and constants are
what stands behind the names. -/
theorem repacks_iff {img : BvbcImage} (hb : Built img) :
    img.Repacks ↔ (packedSize img < 2 ^ 64 →
      img.stringPool.length + img.nconst < 2 ^ 32 ∧ img.NamesRecur) := by
  have h := hb.wellFormed
  constructor
  · intro hrepacks hsize
    exact h.namesRecur_of_repacks hsize hrepacks
  · intro hcond
    by_cases hsize : packedSize img < 2 ^ 64
    · exact h.repacks_of_namesRecur (hcond hsize).1 (hcond hsize).2
    · -- no buffer is large enough for a pack to succeed
      intro buf out hcap hpack
      have hfits := (packed_prefix_of_bvbcPack hpack).1
      exact absurd (hfits.trans_lt hcap) hsize

theorem constImage_repacks_iff :
    constImage.Repacks ↔ (packedSize constImage < 2 ^ 64 →
      constImage.stringPool.length + constImage.nconst < 2 ^ 32 ∧ constImage.NamesRecur) :=
  repacks_iff constImage_built

/-- A kernel `k` of one EXIT, without constants. -/
def exitContainer : BvbcImage :=
  { BvbcImage.zero with
    kernels := [{ name := kernelName (cstr "k"), entry := 0, nargs := 0 }]
    insns := (InsnStream.array (List.replicate bvbcMaxInsn 0)).set 0 0x4600000000000000
    ninsn := 1
    stringPool := cstr "k" ++ [0] }

/-- The name comes out as the first two bytes of the EXIT. -/
theorem not_forall_built_repacks : ¬ ∀ img, Built img → img.Repacks := by
  intro h
  let words : List (BitVec 64) := List.replicate bvbcMaxInsn 0
  have hkernel : Built { exitContainer with insns := .array words, ninsn := 0 } :=
    .addKernel (.zeroed List.length_replicate)
      (show bvbcAddKernel { BvbcImage.zero with insns := .array words } (cstr "k") 0 0 = some _
        from rfl)
  have hb : Built exitContainer :=
    .emit hkernel (show bvbcEmit _ 0x4600000000000000 = some exitContainer from rfl)
  have hrecur := (hb.wellFormed.namesRecur_of_repacks (by decide) (h exitContainer hb)).2
  unfold BvbcImage.NamesRecur at hrecur
  exact absurd hrecur (by decide)

/-! ### Load and save cycles -/

/-- `file'` is what `n` cycles of loading and saving make of `file`. -/
inductive Reloads (file : List Byte) : Nat → List Byte → Prop where
  | saved : Reloads file 0 file
  | cycle {n : Nat} {mid buf out : List Byte} {img : BvbcImage} (h : Reloads file n mid)
      (hcap : buf.length < 2 ^ 64) (hload : bvbcUnpack mid = .ok img)
      (hsave : bvbcPack img buf = .ok out) :
      Reloads file (n + 1) (out.take (bvbcSerializeSize img))

/-- An image that is saved again as it was survives any number of cycles. -/
theorem BvbcImage.Repacks.reloads_eq {img : BvbcImage} (hrepacks : img.Repacks)
    {buf out : List Byte}
    (hcap : buf.length < 2 ^ 64) (hpack : bvbcPack img buf = .ok out) {n : Nat} {file : List Byte}
    (hreload : Reloads (out.take (bvbcSerializeSize img)) n file) :
    file = out.take (bvbcSerializeSize img) := by
  induction hreload with
  | saved => rfl
  | @cycle n mid buf' out' img' _ hcap' hload hsave ih =>
      obtain ⟨img'', hload', hagain⟩ := hrepacks buf out hcap hpack
      rw [ih] at hload
      obtain rfl : img'' = img' := Outcome.ok.inj (hload'.symm.trans hload)
      have hroom : bvbcSerializeSize img'' ≤ buf'.length :=
        le_trans (Nat.mod_le _ _) (packed_prefix_of_bvbcPack hsave).1
      obtain ⟨out'', hsave', hsame⟩ := hagain buf' hcap' hroom
      obtain rfl : out'' = out' := Outcome.ok.inj (hsave'.symm.trans hsave)
      exact hsame

end BradVector
