import BradVector.Proof.Unpack

/-!
# Writing a container and reading it back

`bvbc_pack` writes the sections of an image one behind the other. `bvbc_unpack` gets the kernels and
the instruction words back. The constant region it gets back includes the kernel names.
-/

namespace BradVector

open CSem

/-! ### Images built in memory -/

/-- The images one can build from a zeroed one over a full instruction array. -/
inductive Built : BvbcImage → Prop where
  | zeroed {words : List (BitVec 64)} (h : words.length = bvbcMaxInsn) :
      Built { BvbcImage.zero with insns := .array words }
  | addKernel {img img' : BvbcImage} {name : List Byte} {entry nargs : Word} (hb : Built img)
      (h : bvbcAddKernel img name entry nargs = some img') : Built img'
  | emit {img img' : BvbcImage} {insn : BitVec 64} (hb : Built img)
      (h : bvbcEmit img insn = some img') : Built img'
  | setConst {img : BvbcImage} {p : BytePtr} {n : Nat} (hb : Built img)
      (h : p.off + n ≤ p.obj.length) : Built { img with constBlob := p, nconst := n }

/-- What packing relies on. -/
structure BvbcImage.WellFormed (img : BvbcImage) : Prop where
  kernels_le : img.kernels.length ≤ bvbcMaxKernels
  ninsn_le : img.ninsn ≤ bvbcMaxInsn
  pool_le : img.stringPool.length ≤ stringPoolSize
  names : ∀ k ∈ img.kernels, ∃ s : List Byte, 0 ∉ s ∧ s.length < bvbcMaxName ∧
    k.name = s ++ List.replicate (bvbcMaxName - s.length) 0
  pool : img.stringPool = img.kernels.flatMap fun k => cstrOf k.name ++ [0]
  consts : img.constBlob.off + img.nconst ≤ img.constBlob.obj.length

section CStrings

variable {s t : List Byte}

theorem zero_not_mem_cstrOf (s : List Byte) : (0 : Byte) ∉ cstrOf s := by
  induction s with
  | nil => simp [cstrOf]
  | cons b s ih =>
      by_cases hb : b = 0#8
      · simp [cstrOf, hb]
      · simpa [cstrOf, List.takeWhile_cons, hb, Ne.symm hb] using ih

theorem cstrOf_append_zero (h : (0 : Byte) ∉ s) : cstrOf (s ++ 0 :: t) = s := by
  induction s with
  | nil => rfl
  | cons b s ih =>
      rw [List.mem_cons, not_or] at h
      have hb : b ≠ 0#8 := Ne.symm h.1
      simpa [cstrOf, List.takeWhile_cons, hb] using ih h.2

theorem cstrOf_padded {n : Nat} (h : (0 : Byte) ∉ s) (hn : 0 < n) :
    cstrOf (s ++ List.replicate n 0) = s := by
  cases n with
  | zero => exact absurd hn (by decide)
  | succ n => exact cstrOf_append_zero h

end CStrings

theorem Built.wellFormed {img : BvbcImage} (hb : Built img) : img.WellFormed := by
  induction hb with
  | zeroed h =>
      exact ⟨Nat.zero_le _, Nat.zero_le _, Nat.zero_le _, fun k hk =>
        by simp [BvbcImage.zero] at hk,
        rfl, Nat.zero_le _⟩
  | @addKernel img img' name entry nargs _ h ih =>
      unfold bvbcAddKernel at h
      split_ifs at h with hcount hname hpool
      cases h
      rw [not_or, not_le] at hname
      refine ⟨?_, ih.ninsn_le, ?_, fun k hk => ?_, ?_, ih.consts⟩
      · simp only [List.length_append, List.length_cons, List.length_nil]
        omega
      · simp only [List.length_append, List.length_cons, List.length_nil]
        simp only [strlen] at hpool
        omega
      · rcases List.mem_append.mp hk with hk | hk
        · exact ih.names k hk
        · rw [List.mem_singleton.mp hk]
          exact ⟨cstrOf name, zero_not_mem_cstrOf name, hname.2, rfl⟩
      · have hself : cstrOf (kernelName name) = cstrOf name :=
          cstrOf_padded (zero_not_mem_cstrOf name) (by omega)
        simp [ih.pool, hself]
  | @emit img img' insn _ h ih =>
      unfold bvbcEmit bvbcAddInsn32 at h
      split_ifs at h with hfull
      cases h
      exact ⟨ih.kernels_le, by simp only; omega, ih.pool_le, ih.names, ih.pool, ih.consts⟩
  | setConst _ h ih => exact ⟨ih.kernels_le, ih.ninsn_le, ih.pool_le, ih.names, ih.pool, h⟩

/-- The offset of a name in the pool is the length of what was added before it. -/
theorem BvbcImage.WellFormed.kernelNameOff_eq {img : BvbcImage} (k : Nat) :
    kernelNameOff img k = ((img.kernels.take k).flatMap fun k => cstrOf k.name ++ [0]).length := by
  simp [kernelNameOff, List.length_flatMap, strlen]

/-! ### The bytes of a packed image -/

def headerBytes (img : BvbcImage) : List Byte :=
  toLE 8 bvbcMagic ++ toLE 4 bvbcVersion ++ toLE 4 0 ++ toLE 4 img.kernels.length ++
    toLE 4 (img.stringPool.length + img.nconst) ++ toLE 4 img.ninsn ++ toLE 4 0

/-- The table entry of kernel `k`, with its name at `noff`. -/
def kernelBytes (noff : Nat) (k : BvbcKernel) : List Byte :=
  toLE 4 noff ++ toLE 4 (k.entry.toNat * insnSize) ++ toLE 4 k.nargs.toNat ++ toLE 4 0

def tableBytes (img : BvbcImage) (n : Nat) : List Byte :=
  (List.range n).flatMap fun i => kernelBytes (kernelNameOff img i) (img.kernels.getD i ⟨[], 0, 0⟩)

def constBytes (img : BvbcImage) : List Byte :=
  (img.constBlob.obj.drop img.constBlob.off).take img.nconst

def insnBytes (img : BvbcImage) (n : Nat) : List Byte :=
  (List.range n).flatMap fun i => toLE insnSize (img.insn i).toNat

def packed (img : BvbcImage) : List Byte :=
  headerBytes img ++ tableBytes img img.kernels.length ++ img.stringPool ++ constBytes img ++
    insnBytes img img.ninsn

@[simp]
theorem headerBytes_length (img : BvbcImage) : (headerBytes img).length = bvbcHeaderSize := by
  simp [headerBytes, bvbcHeaderSize]

@[simp]
theorem kernelBytes_length (noff : Nat) (k : BvbcKernel) : (kernelBytes noff k).length = 16 := by
  simp [kernelBytes]

@[simp]
theorem tableBytes_length (img : BvbcImage) (n : Nat) : (tableBytes img n).length = 16 * n := by
  simp [tableBytes, List.length_flatMap, Nat.mul_comm]

@[simp]
theorem insnBytes_length (img : BvbcImage) (n : Nat) :
    (insnBytes img n).length = n * insnSize := by
  simp [insnBytes, List.length_flatMap]

theorem constBytes_length {img : BvbcImage}
    (hread : img.constBlob.off + img.nconst ≤ img.constBlob.obj.length) :
    (constBytes img).length = img.nconst := by
  simp only [constBytes, List.length_take, List.length_drop]
  omega

theorem tableBytes_succ (img : BvbcImage) (i : Fin img.kernels.length) :
    tableBytes img (i + 1) =
      tableBytes img i ++ kernelBytes (kernelNameOff img i) (img.kernels.get i) := by
  simp [tableBytes, List.range_succ]

theorem insnBytes_succ (img : BvbcImage) (n : Nat) :
    insnBytes img (n + 1) = insnBytes img n ++ toLE insnSize (img.insn n).toNat := by
  simp [insnBytes, List.range_succ]

/-! ### Packing writes the sections in order -/

/-- A buffer of `size` bytes that starts with `done`. -/
def HoldsPrefix (size : Nat) (done buf : List Byte) : Prop :=
  buf.length = size ∧ ∃ rest, buf = done ++ rest

theorem HoldsPrefix.eq {done buf : List Byte} (h : HoldsPrefix done.length done buf) :
    buf = done := by
  obtain ⟨hlen, rest, rfl⟩ := h
  rw [List.length_append] at hlen
  rw [List.length_eq_zero_iff.mp (show rest.length = 0 by omega), List.append_nil]

section Writes

variable {size off n : Nat} {buf done bs : List Byte}

theorem bufWrite_sat (hbuf : HoldsPrefix size done buf) (hoff : off = done.length)
    (hroom : off + bs.length ≤ size) :
    (bufWrite off bs buf).Sat (HoldsPrefix size (done ++ bs)) (fun _ => False)
      (fun _ => False) := by
  obtain ⟨rfl, rest, rfl⟩ := hbuf
  rw [bufWrite, if_pos hroom]
  exact ⟨writeAt_length hroom, rest.drop bs.length, writeAt_append hoff⟩

theorem wr32_sat (hbuf : HoldsPrefix size done buf) (hoff : off = done.length)
    (hroom : off + 4 ≤ size) :
    (wr32 off n buf).Sat (HoldsPrefix size (done ++ toLE 4 n)) (fun _ => False)
      (fun _ => False) :=
  bufWrite_sat hbuf hoff (by simpa using hroom)

theorem wr64_sat (hbuf : HoldsPrefix size done buf) (hoff : off = done.length)
    (hroom : off + 8 ≤ size) :
    (wr64 off n buf).Sat (HoldsPrefix size (done ++ toLE 8 n)) (fun _ => False)
      (fun _ => False) :=
  bufWrite_sat hbuf hoff (by simpa using hroom)

end Writes

section Pack

variable {img : BvbcImage} {size : Nat} {buf done : List Byte}

theorem packHeader_sat (hbuf : HoldsPrefix size [] buf) (hroom : bvbcHeaderSize ≤ size) :
    (packHeader img buf).Sat (HoldsPrefix size (headerBytes img)) (fun _ => False)
      (fun _ => False) := by
  have hroom : 32 ≤ size := hroom
  unfold packHeader
  refine (wr64_sat hbuf (show 0 = _ from rfl) (by omega)).bind fun _ h => ?_
  refine (wr32_sat h (by simp) (by omega)).bind fun _ h => ?_
  refine (wr32_sat h (by simp) (by omega)).bind fun _ h => ?_
  refine (wr32_sat h (by simp) (by omega)).bind fun _ h => ?_
  refine (wr32_sat h (by simp) (by omega)).bind fun _ h => ?_
  refine (wr32_sat h (by simp) (by omega)).bind fun _ h => ?_
  exact wr32_sat h (by simp) (by omega)

theorem packKernel_sat {i : Fin img.kernels.length} (hbuf : HoldsPrefix size done buf)
    (hoff : bvbcHeaderSize + 16 * i = done.length) (hroom : bvbcHeaderSize + 16 * i + 16 ≤ size) :
    (packKernel img i buf).Sat
      (HoldsPrefix size (done ++ kernelBytes (kernelNameOff img i) img.kernels[i]))
      (fun _ => False) (fun _ => False) := by
  refine (wr32_sat hbuf hoff (by omega)).bind fun _ h => ?_
  refine (wr32_sat h (by simp [hoff]) (by omega)).bind fun _ h => ?_
  refine (wr32_sat h (by simp [hoff]) (by omega)).bind fun _ h => ?_
  have hlast := wr32_sat (n := 0) h (show bvbcHeaderSize + 16 * i + 12 = _ by simp [hoff])
    (by omega)
  simpa only [kernelBytes, List.append_assoc] using hlast

end Pack

/-- The size of a packed image, before it is cut to 64 bits. -/
def packedSize (img : BvbcImage) : Nat :=
  bvbcHeaderSize + 16 * img.kernels.length + img.stringPool.length + img.nconst +
    img.ninsn * insnSize

theorem packed_length {img : BvbcImage}
    (hread : img.constBlob.off + img.nconst ≤ img.constBlob.obj.length) :
    (packed img).length = packedSize img := by
  simp only [packed, packedSize, List.length_append, headerBytes_length, tableBytes_length,
    constBytes_length hread, insnBytes_length]

theorem bvbcPack_sat {img : BvbcImage} {buf : List Byte}
    (hread : img.constBlob.off + img.nconst ≤ img.constBlob.obj.length)
    (hfits : packedSize img ≤ buf.length) :
    (bvbcPack img buf).Sat (HoldsPrefix buf.length (packed img)) (fun _ => False)
      (fun _ => False) := by
  have hcap : ¬ buf.length < bvbcSerializeSize img :=
    not_lt.mpr (le_trans (Nat.mod_le _ _) hfits)
  have hsum : packedSize img = bvbcHeaderSize + 16 * img.kernels.length +
    img.stringPool.length + img.nconst + img.ninsn * insnSize := rfl
  rw [bvbcPack, if_neg hcap]
  have hstart : HoldsPrefix buf.length [] buf := ⟨rfl, buf, rfl⟩
  refine (packHeader_sat hstart (by omega)).bind fun buf₁ h₁ => ?_
  -- after `i` entries the table holds the bytes of the first `i` kernels
  refine Outcome.Sat.bind (Outcome.Sat.forRange
    (I := fun i => HoldsPrefix buf.length (headerBytes img ++ tableBytes img i))
    (by simpa [tableBytes] using h₁) fun i buf' h' => ?_) fun buf₂ h₂ => ?_
  · have hi := i.isLt
    rw [tableBytes_succ, ← List.append_assoc]
    exact packKernel_sat h' (by simp) (by omega)
  refine (bufWrite_sat h₂ (by simp [kernelTableSize])
    (by simp only [kernelTableSize]; omega)).bind fun buf₃ h₃ => ?_
  rw [BytePtr.read, if_pos hread]
  have hconsts : bvbcHeaderSize + kernelTableSize img + img.stringPool.length +
      (constBytes img).length ≤ buf.length := by
    simp only [kernelTableSize, constBytes_length hread]
    omega
  refine (bufWrite_sat h₃ (by simp [kernelTableSize, Nat.add_assoc]) hconsts).bind
    fun buf₄ h₄ => ?_
  -- after `i` words the buffer holds the first `i` instructions
  refine Outcome.Sat.forRange
    (I := fun i => HoldsPrefix buf.length (headerBytes img ++
      tableBytes img img.kernels.length ++ img.stringPool ++ constBytes img ++ insnBytes img i))
    (by simpa [insnBytes] using h₄) fun i buf' h' => ?_
  have hi := i.isLt
  rw [insnBytes_succ, ← List.append_assoc]
  refine wr64_sat h' ?_ ?_
  · simp [kernelTableSize, constBytes_length hread, Nat.add_assoc]
  · simp only [kernelTableSize, insnSize] at hsum ⊢
    omega

theorem BvbcImage.WellFormed.bvbcPack_eq {img : BvbcImage} (h : img.WellFormed) {buf : List Byte}
    (hlen : buf.length = bvbcSerializeSize img) (hsize : packedSize img < 2 ^ 64) :
    bvbcPack img buf = .ok (packed img) := by
  have hlen : buf.length = packedSize img := hlen.trans (Nat.mod_eq_of_lt hsize)
  obtain ⟨out, hout, hpre⟩ := (bvbcPack_sat h.consts hlen.ge).exists_ok
  rw [hlen, ← packed_length h.consts] at hpre
  rw [hout, hpre.eq]

/-! ### Unpacking reads the sections back -/

section Unpack

variable {buf : List Byte} {off : Nat} (before after : List Byte)

theorem rdBytes_of_append {bs : List Byte} {n : Nat} (hbuf : buf = before ++ (bs ++ after))
    (hoff : off = before.length) (hn : n = bs.length) : rdBytes buf off n = .ok bs := by
  rw [rdBytes_eq_ok (by rw [hbuf, hoff, hn]; simp), take_drop_of_append hbuf hoff hn]

theorem headerField_of_append {v : Nat} (hbuf : buf = before ++ (toLE 4 v ++ after))
    (hoff : off = before.length) : headerField buf off = v % 2 ^ 32 := by
  rw [headerField, take_drop_of_append hbuf hoff (by simp), ofLE_toLE]
  rfl

theorem rd32_of_append {v : Nat} (hbuf : buf = before ++ (toLE 4 v ++ after))
    (hoff : off = before.length) (hv : v < 2 ^ 32) : rd32 buf off = .ok v := by
  rw [rd32_eq_ok (by rw [hbuf, hoff]; simp), headerField_of_append before after hbuf hoff,
    Nat.mod_eq_of_lt hv]

theorem scanName_of_append {s done : List Byte} {limit fuel : Nat}
    (hbuf : buf = before ++ (done ++ (s ++ 0 :: after))) (hoff : off = before.length)
    (hs : (0 : Byte) ∉ s) (hlimit : done.length + s.length < limit)
    (hmax : done.length + s.length < bvbcMaxName) (hfuel : s.length < fuel) :
    scanName buf off limit fuel done.length = .ok (done.length + s.length) := by
  induction s generalizing done fuel with
  | nil =>
      cases fuel with
      | zero => simp at hfuel
      | succ fuel =>
          have hread : rdBytes buf (off + done.length) 1 = .ok [0] :=
            rdBytes_of_append (before ++ done) after (by simp [hbuf]) (by simp [hoff]) rfl
          rw [scanName, if_pos (by simpa using hlimit), hread]
          simp
  | cons b s ih =>
      cases fuel with
      | zero => simp at hfuel
      | succ fuel =>
          simp only [List.length_cons, List.mem_cons, not_or] at hs hlimit hmax hfuel ⊢
          have hread : rdBytes buf (off + done.length) 1 = .ok [b] :=
            rdBytes_of_append (before ++ done) (s ++ 0 :: after) (by simp [hbuf]) (by simp [hoff])
              rfl
          have hmore : [b] ≠ [0] ∧ done.length < bvbcMaxName - 1 :=
            ⟨by simpa using Ne.symm hs.1, by omega⟩
          have hrest := @ih (done ++ [b]) fuel (by simp [hbuf]) hs.2
            (by simp only [List.length_append, List.length_singleton]; omega)
            (by simp only [List.length_append, List.length_singleton]; omega)
            (show s.length < fuel by omega)
          rw [List.length_append, List.length_singleton] at hrest
          rw [scanName, if_pos (by omega), hread]
          simp only [Outcome.bind_eq_bind, Outcome.ok_bind]
          rw [if_pos hmore, hrest, Nat.add_assoc, Nat.add_comm 1]

end Unpack

/-- A kernel as its table entry keeps it: 32 bits of the byte offset of its first instruction. -/
def BvbcKernel.reloaded (k : BvbcKernel) : BvbcKernel :=
  { k with entry := BitVec.ofNat 32 (k.entry.toNat * insnSize % 2 ^ 32 / insnSize) }

theorem BvbcKernel.reloaded_of_small {k : BvbcKernel} (h : k.entry.toNat * insnSize < 2 ^ 32) :
    k.reloaded = k := by
  have hentry : BitVec.ofNat 32 (k.entry.toNat * insnSize % 2 ^ 32 / insnSize) = k.entry := by
    rw [Nat.mod_eq_of_lt h, Nat.mul_div_cancel _ (by decide), BitVec.ofNat_toNat,
      BitVec.setWidth_eq]
  rw [BvbcKernel.reloaded, hentry]

theorem BvbcKernel.reloaded_entry (k : BvbcKernel) :
    k.reloaded.entry.toNat * insnSize = k.entry.toNat * insnSize % 2 ^ 32 := by
  simp only [BvbcKernel.reloaded, BitVec.toNat_ofNat, insnSize]
  omega

theorem namesLen_reloaded (kernels : List BvbcKernel) :
    namesLen (kernels.map BvbcKernel.reloaded) = namesLen kernels := by
  simp [namesLen, BvbcKernel.reloaded, Function.comp_def]

section Packed

variable {img : BvbcImage}

theorem headerFields_packed :
    headerKernels (packed img) = img.kernels.length % 2 ^ 32 ∧
    headerConsts (packed img) = (img.stringPool.length + img.nconst) % 2 ^ 32 ∧
    headerInsns (packed img) = img.ninsn % 2 ^ 32 := by
  let nkern := toLE 4 img.kernels.length
  let nconst := toLE 4 (img.stringPool.length + img.nconst)
  let ninsn := toLE 4 img.ninsn
  let start := toLE 8 bvbcMagic ++ toLE 4 bvbcVersion ++ toLE 4 0
  let rest := toLE 4 0 ++ tableBytes img img.kernels.length ++ img.stringPool ++ constBytes img ++
    insnBytes img img.ninsn
  have hbuf : packed img = start ++ (nkern ++ (nconst ++ (ninsn ++ rest))) := by
    simp [packed, headerBytes, nkern, nconst, ninsn, start, rest]
  refine ⟨headerField_of_append start (nconst ++ (ninsn ++ rest)) hbuf (by simp [start]),
    headerField_of_append (start ++ nkern) (ninsn ++ rest) ?_ (by simp [start, nkern]),
    headerField_of_append (start ++ nkern ++ nconst) rest ?_ (by simp [start, nkern, nconst])⟩
  · simpa [nconst] using hbuf
  · simpa [ninsn] using hbuf

theorem magic_packed : rdBytes (packed img) 0 8 = .ok (toLE 8 bvbcMagic) := by
  refine rdBytes_of_append [] (toLE 4 bvbcVersion ++ toLE 4 0 ++ toLE 4 img.kernels.length ++
    toLE 4 (img.stringPool.length + img.nconst) ++ toLE 4 img.ninsn ++ toLE 4 0 ++
    tableBytes img img.kernels.length ++ img.stringPool ++ constBytes img ++
    insnBytes img img.ninsn) ?_ rfl (by simp)
  simp [packed, headerBytes]

variable (h : img.WellFormed)
include h

theorem BvbcImage.WellFormed.pool_eq (i : Fin img.kernels.length) :
    ∃ before after, img.stringPool = before ++ (cstrOf (img.kernels.get i).name ++ 0 :: after) ∧
      kernelNameOff img i = before.length := by
  change ∃ before after, img.stringPool = before ++ (cstrOf img.kernels[i].name ++ 0 :: after) ∧ _
  let names (ks : List BvbcKernel) := ks.flatMap fun k => cstrOf k.name ++ [0]
  have hsplit : img.kernels = img.kernels.take i ++ img.kernels[i] :: img.kernels.drop (i + 1) := by
    simp
  refine ⟨names (img.kernels.take i), names (img.kernels.drop (i + 1)), ?_, kernelNameOff_eq i⟩
  calc img.stringPool = names img.kernels := h.pool
    _ = names (img.kernels.take i ++ img.kernels[i] :: img.kernels.drop (i + 1)) := by
        rw [← hsplit]
    _ = _ := by simp only [names, List.flatMap_append, List.flatMap_cons, List.append_assoc,
        List.singleton_append]

theorem BvbcImage.WellFormed.namesLen_eq : namesLen img.kernels = img.stringPool.length := by
  rw [h.pool]
  simp [namesLen, List.length_flatMap, strlen]

theorem BvbcImage.WellFormed.unpackKernel_packed (i : Fin img.kernels.length) :
    unpackKernel (packed img) (bvbcHeaderSize + 16 * img.kernels.length)
      (img.stringPool.length + img.nconst) i = .ok (img.kernels.get i).reloaded := by
  change unpackKernel _ _ _ _ = .ok img.kernels[i].reloaded
  obtain ⟨before, after, hpool, hoff⟩ := h.pool_eq i
  change img.stringPool = before ++ (cstrOf img.kernels[i].name ++ 0 :: after) at hpool
  obtain ⟨s, hs, hslen, hname⟩ := h.names img.kernels[i] (List.getElem_mem _)
  have hself : cstrOf img.kernels[i].name = s := by
    rw [hname]
    exact cstrOf_padded hs (by omega)
  rw [hself] at hpool
  have hpoolLen : img.stringPool.length = before.length + (s.length + (after.length + 1)) := by
    simp [hpool]
  have hpoolLe : img.stringPool.length ≤ 4096 := h.pool_le
  -- the table entry
  let table := headerBytes img ++ tableBytes img i
  let noff := toLE 4 (kernelNameOff img i)
  let eoff := toLE 4 (img.kernels[i].entry.toNat * insnSize)
  let narg := toLE 4 img.kernels[i].nargs.toNat
  let rest := toLE 4 0 ++ (List.range (img.kernels.length - (i + 1))).flatMap (fun j =>
    kernelBytes (kernelNameOff img (i + 1 + j)) (img.kernels.getD (i + 1 + j) ⟨[], 0, 0⟩)) ++
    img.stringPool ++ constBytes img ++ insnBytes img img.ninsn
  have htable : packed img = table ++ (noff ++ (eoff ++ (narg ++ rest))) := by
    rw [packed, tableBytes, flatMap_range_split _ i.isLt]
    simp [table, rest, noff, eoff, narg, tableBytes, kernelBytes]
  have hlen : bvbcHeaderSize + i * 16 = table.length := by simp [table, Nat.mul_comm]
  have hnoff : rd32 (packed img) (bvbcHeaderSize + i * 16) = .ok before.length := by
    rw [← hoff]
    exact rd32_of_append table (eoff ++ (narg ++ rest)) htable hlen (by omega)
  have heoff : rd32 (packed img) (bvbcHeaderSize + i * 16 + 4) =
      .ok (img.kernels[i].entry.toNat * insnSize % 2 ^ 32) := by
    rw [rd32_eq_ok (by rw [htable, hlen]; simp [noff, eoff]; omega),
      headerField_of_append (table ++ noff) (narg ++ rest) ?_ (by simp [hlen, noff])]
    simpa [eoff] using htable
  have hnarg : rd32 (packed img) (bvbcHeaderSize + i * 16 + 8) =
      .ok img.kernels[i].nargs.toNat := by
    refine rd32_of_append (table ++ noff ++ eoff) rest ?_ (by simp [hlen, noff, eoff])
      img.kernels[i].nargs.isLt
    simpa [narg] using htable
  -- the name
  let front := headerBytes img ++ tableBytes img img.kernels.length ++ before
  let back := after ++ constBytes img ++ insnBytes img img.ninsn
  have hfront : packed img = front ++ (s ++ 0 :: back) := by
    rw [packed, hpool]
    simp [front, back]
  have hflen : bvbcHeaderSize + 16 * img.kernels.length + before.length = front.length := by
    simp [front, Nat.add_assoc]
  have hscan : scanName (packed img) (bvbcHeaderSize + 16 * img.kernels.length + before.length)
      (img.stringPool.length + img.nconst - before.length) bvbcMaxName 0 = .ok s.length := by
    have hlimit : s.length < img.stringPool.length + img.nconst - before.length := by omega
    have h := scanName_of_append front back
      (show _ = front ++ ([] ++ (s ++ 0 :: back)) from hfront) hflen hs
      (by simpa using hlimit) (by simpa using hslen) hslen
    simpa using h
  have hread := rdBytes_of_append front (0 :: back) hfront hflen rfl
  unfold unpackKernel
  simp only [hnoff, heoff, hnarg, Outcome.bind_eq_bind, Outcome.ok_bind]
  rw [if_neg (by omega), if_neg (by simp only [insnSize]; omega), hscan, Outcome.ok_bind, hread,
    Outcome.ok_bind, ← hname]
  simp [BvbcKernel.reloaded]

/-- What a packed image is read back as: the whole constant region becomes constants. -/
def unpacked (img : BvbcImage) : BvbcImage where
  version := 1
  kernels := img.kernels
  constBlob := ⟨packed img, bvbcHeaderSize + 16 * img.kernels.length + img.stringPool.length⟩
  nconst := img.stringPool.length + img.nconst
  insns := .view (packed img)
    (bvbcHeaderSize + 16 * img.kernels.length + (img.stringPool.length + img.nconst))
  ninsn := img.ninsn
  stringPool := []

/-- The same with the kernels as their table entries keep them. -/
def BvbcImage.reloaded (img : BvbcImage) : BvbcImage :=
  { unpacked img with kernels := img.kernels.map BvbcKernel.reloaded }

/-- `bvbc_unpack` accepts a packed image whose constant region has a 32-bit size. -/
theorem BvbcImage.WellFormed.bvbcUnpack_packed
    (hconst : img.stringPool.length + img.nconst < 2 ^ 32) :
    bvbcUnpack (packed img) = .ok img.reloaded := by
  have hkern : img.kernels.length ≤ 256 := h.kernels_le
  have hninsn : img.ninsn ≤ 65536 := h.ninsn_le
  have hlen : (packed img).length = bvbcHeaderSize + 16 * img.kernels.length +
      (img.stringPool.length + img.nconst) + img.ninsn * insnSize := by
    rw [packed_length h.consts, packedSize, Nat.add_assoc _ img.stringPool.length]
  obtain ⟨hnkern, hnconst, hninsns⟩ :
    headerKernels (packed img) = _ ∧ headerConsts (packed img) = _ ∧ headerInsns (packed img) = _ :=
    headerFields_packed
  rw [Nat.mod_eq_of_lt (by omega)] at hnkern hnconst hninsns
  have hheader (off : Nat) (hoff : off + 4 ≤ bvbcHeaderSize) :
      rd32 (packed img) off = .ok (headerField (packed img) off) := rd32_eq_ok (by omega)
  obtain ⟨kernels, hkernels, rfl⟩ := Outcome.Sat.exists_ok (Outcome.Sat.forRange
    (I := fun i ks => ks = (img.kernels.take i).map BvbcKernel.reloaded) rfl
    fun (i : Fin img.kernels.length) ks hks => by
      have hk := h.unpackKernel_packed i
      show ((unpackKernel (packed img) (bvbcHeaderSize + 16 * img.kernels.length)
        (img.stringPool.length + img.nconst) i).bind fun k => .ok (ks ++ [k])).Sat _
          (fun _ => False) (fun _ => False)
      rw [hk, hks, ← List.take_concat_get' _ _ i.isLt, List.map_append]
      rfl)
  unfold bvbcUnpack
  rw [if_neg (by omega), magic_packed]
  simp only [Outcome.bind_eq_bind, Outcome.ok_bind, ne_eq, not_true_eq_false, if_false]
  rw [hheader 8 (by decide), hheader 16 (by decide), hheader 20 (by decide),
    hheader 24 (by decide)]
  simp only [Outcome.ok_bind, headerKernels, headerConsts, headerInsns] at *
  rw [hnkern, hnconst, hninsns]
  have hloop : Outcome.forRange img.kernels.length (fun i ks =>
      (unpackKernel (packed img) (bvbcHeaderSize + 16 * img.kernels.length)
        (img.stringPool.length + img.nconst) i).bind fun k => pure (ks ++ [k])) [] =
      .ok (img.kernels.map BvbcKernel.reloaded) := by
    rwa [List.take_zero, List.take_length] at hkernels
  rw [if_neg (by simp only [bvbcMaxKernels, bvbcMaxInsn]; omega), if_neg (by omega), hloop,
    Outcome.ok_bind, namesLen_reloaded, h.namesLen_eq, if_neg (by omega)]
  rfl

theorem BvbcImage.WellFormed.insn_unpacked {i : Nat} (hi : i < img.ninsn) :
    (unpacked img).insn i = img.insn i := by
  have hbuf : packed img = headerBytes img ++ tableBytes img img.kernels.length ++
      img.stringPool ++ constBytes img ++ insnBytes img i ++ (toLE insnSize (img.insn i).toNat ++
        (List.range (img.ninsn - (i + 1))).flatMap fun j =>
          toLE insnSize (img.insn (i + 1 + j)).toNat) := by
    rw [packed, insnBytes, flatMap_range_split _ hi]
    simp [insnBytes]
  have hslice : ((packed img).drop (bvbcHeaderSize + 16 * img.kernels.length +
      (img.stringPool.length + img.nconst) + i * insnSize)).take insnSize =
        toLE insnSize (img.insn i).toNat :=
    take_drop_of_append hbuf (by simp [constBytes_length h.consts, Nat.add_assoc]) (by simp)
  have hword : ofLE (toLE insnSize (img.insn i).toNat) = (img.insn i).toNat :=
    ofLE_toLE_of_lt (img.insn i).isLt
  simp only [BvbcImage.insn, unpacked, InsnStream.get] at hslice hword ⊢
  rw [hslice, hword]
  simp

theorem BvbcImage.WellFormed.reloaded_kernels
    (hentry : ∀ k ∈ img.kernels, k.entry.toNat ≤ img.ninsn) :
    img.reloaded.kernels = img.kernels := by
  have hninsn : img.ninsn ≤ 65536 := h.ninsn_le
  have hsmall (k : BvbcKernel) (hk : k ∈ img.kernels) : k.reloaded = id k := by
    have hle := hentry k hk
    refine BvbcKernel.reloaded_of_small ?_
    simp only [insnSize]
    omega
  exact (List.map_congr_left hsmall).trans (List.map_id _)

theorem BvbcImage.WellFormed.constBlob_unpacked :
    (unpacked img).constBlob.read img.nconst = img.constBlob.read img.nconst := by
  have hbuf : packed img = headerBytes img ++ tableBytes img img.kernels.length ++
      img.stringPool ++ (constBytes img ++ insnBytes img img.ninsn) := by
    simp [packed]
  have hslice : ((packed img).drop (unpacked img).constBlob.off).take img.nconst = constBytes img :=
    take_drop_of_append hbuf (by simp [unpacked, Nat.add_assoc]) (constBytes_length h.consts).symm
  have hfits : (unpacked img).constBlob.off + img.nconst ≤ (unpacked img).constBlob.obj.length := by
    simp only [unpacked, packed_length h.consts, packedSize]
    omega
  rw [BytePtr.read, BytePtr.read, if_pos hfits, if_pos h.consts]
  exact congrArg _ hslice

end Packed

/-! ### The round trip -/

/-- The two images hold the same kernels, instructions and constants. -/
structure BvbcImage.SameContents (img img' : BvbcImage) : Prop where
  kernels : img'.kernels = img.kernels
  ninsn : img'.ninsn = img.ninsn
  insns : ∀ i < img.ninsn, img'.insn i = img.insn i
  nconst : img'.nconst = img.nconst
  consts : img'.constBlob.read img'.nconst = img.constBlob.read img.nconst

/-- Packing into a buffer of the advertised size succeeds, and unpacking that gives the image
back. -/
def BvbcImage.RoundTrips (img : BvbcImage) : Prop :=
  ∀ buf : List Byte, buf.length = bvbcSerializeSize img →
    ∃ out img', bvbcPack img buf = .ok out ∧ bvbcUnpack out = .ok img' ∧ img.SameContents img'

section RoundTrip

variable {img : BvbcImage} (h : img.WellFormed)
include h

theorem BvbcImage.WellFormed.packedSize_lt (hconst : img.nconst < 2 ^ 32) :
    packedSize img < 2 ^ 64 := by
  have hkern : img.kernels.length ≤ 256 := h.kernels_le
  have hninsn : img.ninsn ≤ 65536 := h.ninsn_le
  have hpool : img.stringPool.length ≤ 4096 := h.pool_le
  simp only [packedSize, bvbcHeaderSize, insnSize]
  omega

/-- All but the length of the constants survives, whatever the image holds. -/
theorem BvbcImage.WellFormed.pack_unpack (hentry : ∀ k ∈ img.kernels, k.entry.toNat ≤ img.ninsn)
    (hconst : img.stringPool.length + img.nconst < 2 ^ 32) {buf : List Byte}
    (hlen : buf.length = bvbcSerializeSize img) :
    ∃ out img', bvbcPack img buf = .ok out ∧ bvbcUnpack out = .ok img' ∧
      img'.kernels = img.kernels ∧ img'.ninsn = img.ninsn ∧
      (∀ i < img.ninsn, img'.insn i = img.insn i) ∧
      img'.nconst = img.stringPool.length + img.nconst ∧
      img'.constBlob.read img.nconst = img.constBlob.read img.nconst :=
  ⟨packed img, img.reloaded, h.bvbcPack_eq hlen (h.packedSize_lt (by omega)),
    h.bvbcUnpack_packed hconst, h.reloaded_kernels hentry, rfl, fun _ => h.insn_unpacked, rfl,
    h.constBlob_unpacked⟩

theorem BvbcImage.WellFormed.length_le_pool : img.kernels.length ≤ img.stringPool.length := by
  rw [← h.namesLen_eq]
  exact length_le_namesLen img.kernels

/-- A round trip takes the 32-bit header field for the length of the constants, and that counts the
names too. -/
theorem BvbcImage.WellFormed.no_kernels_of_roundTrips (hround : img.RoundTrips) :
    img.kernels = [] ∧ img.nconst < 2 ^ 32 := by
  obtain ⟨out, img', hpack, hunpack, hsame⟩ :=
    hround (List.replicate (bvbcSerializeSize img) 0) List.length_replicate
  have hfield : img.nconst = headerConsts out :=
    hsame.nconst.symm.trans ((bvbcUnpack_sat out).of_eq_ok hunpack).nconst
  have hsmall : img.nconst < 2 ^ 32 := hfield ▸ headerField_lt out 20
  rw [h.bvbcPack_eq List.length_replicate (h.packedSize_lt hsmall), Outcome.ok.injEq] at hpack
  rw [← hpack, headerFields_packed.2.1] at hfield
  have hpool : img.stringPool.length ≤ 4096 := h.pool_le
  have hcount := h.length_le_pool
  exact ⟨List.length_eq_zero_iff.mp (by omega), hsmall⟩

theorem BvbcImage.WellFormed.roundTrips_of_no_kernels (hnil : img.kernels = [])
    (hconst : img.nconst < 2 ^ 32) : img.RoundTrips := by
  have hpool : img.stringPool.length = 0 := by simp [h.pool, hnil]
  intro buf hlen
  obtain ⟨out, img', hpack, hunpack, hkernels, hninsn, hinsns, hnconst, hblob⟩ :=
    h.pack_unpack (by simp [hnil]) (by omega) hlen
  rw [hpool, Nat.zero_add] at hnconst
  exact ⟨out, img', hpack, hunpack, hkernels, hninsn, hinsns, hnconst, by rw [hnconst, hblob]⟩

end RoundTrip

/-- **The container round trip.** An image built in memory survives packing and unpacking exactly
when it has no kernel, and constants whose length fits the header field. -/
theorem roundTrips_iff {img : BvbcImage} (hb : Built img) :
    img.RoundTrips ↔ img.kernels = [] ∧ img.nconst < 2 ^ 32 :=
  ⟨hb.wellFormed.no_kernels_of_roundTrips,
    fun ⟨hnil, hconst⟩ => hb.wellFormed.roundTrips_of_no_kernels hnil hconst⟩

/-- An image with two bytes of constants, over a cleared instruction array. -/
def constImage : BvbcImage :=
  { BvbcImage.zero with
    insns := .array (List.replicate bvbcMaxInsn 0)
    constBlob := ⟨[1, 2], 0⟩
    nconst := 2 }

theorem constImage_built : Built constImage :=
  .setConst (.zeroed List.length_replicate) (show 0 + 2 ≤ 2 by decide)

theorem constImage_roundTrips_iff :
    constImage.RoundTrips ↔ constImage.kernels = [] ∧ constImage.nconst < 2 ^ 32 :=
  roundTrips_iff constImage_built

/-- The same image with a kernel `k`. -/
def kernelImage : BvbcImage :=
  { constImage with
    stringPool := cstr "k" ++ [0]
    kernels := [{ name := kernelName (cstr "k"), entry := 0, nargs := 0 }] }

/-- With a kernel the two bytes of constants come back as four. -/
theorem not_forall_built_roundTrips :
    ¬ ∀ img, Built img → (∀ k ∈ img.kernels, k.entry.toNat ≤ img.ninsn) → img.RoundTrips := by
  intro h
  have hb : Built kernelImage := .addKernel constImage_built
    (show bvbcAddKernel constImage (cstr "k") 0 0 = some kernelImage from rfl)
  have hround := h kernelImage hb fun k hk => by
    rw [List.mem_singleton.mp hk]
    exact Nat.zero_le _
  exact List.cons_ne_nil _ _ (hb.wellFormed.no_kernels_of_roundTrips hround).1

end BradVector
