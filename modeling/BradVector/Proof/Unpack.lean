import BradVector.Bvbc

/-!
# Reading a container

`bvbc_unpack` reads every buffer within its length, terminates every kernel name and points `insns`
at the instruction region. The constants it describes keep the length of the whole constant region
and start behind the names in it, so they run past that region as soon as there is a name.
-/

namespace BradVector

open CSem

/-! ### The regions a header describes -/

/-- The 32-bit header field at `off`. -/
def headerField (buf : List Byte) (off : Nat) : Nat := ofLE ((buf.drop off).take 4)

def headerKernels (buf : List Byte) : Nat := headerField buf 16
def headerConsts (buf : List Byte) : Nat := headerField buf 20
def headerInsns (buf : List Byte) : Nat := headerField buf 24

def constRegion (buf : List Byte) : Nat := bvbcHeaderSize + 16 * headerKernels buf
def insnRegion (buf : List Byte) : Nat := constRegion buf + headerConsts buf
def insnRegionEnd (buf : List Byte) : Nat := insnRegion buf + headerInsns buf * insnSize

/-- A `char [64]` that holds a string. -/
def NameTerminated (name : List Byte) : Prop := name.length = bvbcMaxName ∧ 0 ∈ name

/-- The names are strings, and the views lie in the buffer's regions. -/
structure BvbcImage.WithinRegions (img : BvbcImage) (buf : List Byte) : Prop where
  names : ∀ k ∈ img.kernels, NameTerminated k.name
  consts : img.constBlob.obj = buf ∧ constRegion buf ≤ img.constBlob.off ∧
    img.constBlob.off + img.nconst ≤ insnRegion buf
  insns : ∃ off, img.insns = .view buf off ∧ insnRegion buf ≤ off ∧
    off + img.ninsn * insnSize ≤ insnRegionEnd buf ∧ insnRegionEnd buf ≤ buf.length

/-! ### Reads -/

section Reads

variable {buf : List Byte} {off n : Nat}

theorem rdBytes_eq_ok (h : off + n ≤ buf.length) :
    rdBytes buf off n = .ok ((buf.drop off).take n) := if_pos h

theorem rd32_eq_ok (h : off + 4 ≤ buf.length) : rd32 buf off = .ok (headerField buf off) := by
  simp only [rd32, rdBytes_eq_ok h]
  rfl

theorem headerField_lt (buf : List Byte) (off : Nat) : headerField buf off < 2 ^ 32 := by
  refine Nat.lt_of_lt_of_le (ofLE_lt _) ?_
  calc 256 ^ ((buf.drop off).take 4).length ≤ 256 ^ 4 :=
        Nat.pow_le_pow_right (by decide) (List.length_take_le _ _)
    _ = 2 ^ 32 := by decide

theorem scanName_sat {nsrc limit fuel nl : Nat} (hlimit : nsrc + limit ≤ buf.length)
    (hnl : nl ≤ limit) (hmax : nl < bvbcMaxName) :
    (scanName buf nsrc limit fuel nl).Sat (fun r => r ≤ limit ∧ r < bvbcMaxName)
      (fun _ => False) (fun _ => False) := by
  induction fuel generalizing nl with
  | zero => exact ⟨hnl, hmax⟩
  | succ fuel ih =>
      rw [scanName]
      split_ifs with hlt
      · rw [rdBytes_eq_ok (by omega)]
        simp only [Outcome.bind_eq_bind, Outcome.ok_bind]
        split_ifs with hmore
        · exact ih (by omega) (by omega)
        · exact ⟨hnl, hmax⟩
      · exact ⟨hnl, hmax⟩

theorem unpackKernel_sat {c0 nconst i : Nat} (hentry : bvbcHeaderSize + i * 16 + 16 ≤ c0)
    (hconst : c0 + nconst ≤ buf.length) :
    (unpackKernel buf c0 nconst i).Sat (fun k => NameTerminated k.name ∧ 0 < nconst)
      (fun _ => True) (fun _ => False) := by
  unfold unpackKernel
  simp only [rd32_eq_ok (show bvbcHeaderSize + i * 16 + 4 ≤ buf.length by omega),
    rd32_eq_ok (show bvbcHeaderSize + i * 16 + 4 + 4 ≤ buf.length by omega),
    rd32_eq_ok (show bvbcHeaderSize + i * 16 + 8 + 4 ≤ buf.length by omega),
    Outcome.bind_eq_bind, Outcome.ok_bind]
  split_ifs with hoff halign
  · trivial
  · trivial
  · have hoff := not_le.mp hoff
    refine Outcome.Sat.bind (scanName_sat (by omega) (Nat.zero_le _) (by decide) |>.mono
      (fun _ h => h) (fun _ h => h.elim) (fun _ h => h)) fun nl ⟨hnl, hmax⟩ => ?_
    rw [rdBytes_eq_ok (by omega)]
    refine ⟨⟨?_, ?_⟩, by omega⟩
    · simp only [List.length_append, List.length_take, List.length_drop, List.length_replicate]
      omega
    · refine List.mem_append_right _ (List.mem_replicate.mpr ⟨?_, rfl⟩)
      omega

end Reads

/-- What an accepted buffer is unpacked to. -/
structure UnpackedFrom (buf : List Byte) (img : BvbcImage) : Prop where
  kernels : img.kernels.length = headerKernels buf
  names : ∀ k ∈ img.kernels, NameTerminated k.name ∧ 0 < headerConsts buf
  nconst : img.nconst = headerConsts buf
  constBlob : img.constBlob = ⟨buf, constRegion buf + namesLen img.kernels⟩
  namesLen_le : namesLen img.kernels ≤ headerConsts buf
  ninsn : img.ninsn = headerInsns buf
  insns : img.insns = .view buf (insnRegion buf)
  fits : insnRegionEnd buf ≤ buf.length

/-- `bvbc_unpack` reads within the buffer, whatever it holds. -/
theorem bvbcUnpack_sat (buf : List Byte) :
    (bvbcUnpack buf).Sat (UnpackedFrom buf) (fun _ => True) (fun _ => False) := by
  unfold bvbcUnpack
  split_ifs with hlen
  · trivial
  have hlen : bvbcHeaderSize ≤ buf.length := not_lt.mp hlen
  have hheader (off : Nat) (h : off + 4 ≤ bvbcHeaderSize) :
      rd32 buf off = .ok (headerField buf off) := rd32_eq_ok (by omega)
  rw [rdBytes_eq_ok (show 0 + 8 ≤ buf.length from le_trans (by decide) hlen)]
  simp only [Outcome.bind_eq_bind, Outcome.ok_bind]
  split_ifs with hmagic
  · trivial
  rw [hheader 8 (by decide), hheader 16 (by decide), hheader 20 (by decide),
    hheader 24 (by decide)]
  simp only [Outcome.ok_bind]
  split_ifs with hmax hfits
  · trivial
  · trivial
  have hfits : insnRegionEnd buf ≤ buf.length := not_lt.mp hfits
  have hconst : constRegion buf + headerConsts buf ≤ buf.length :=
    le_trans (Nat.le_add_right _ _) hfits
  -- the kernels read so far all have a terminated name
  refine Outcome.Sat.bind (Outcome.Sat.forRange
    (I := fun k ks => ks.length = k ∧ ∀ x ∈ ks, NameTerminated x.name ∧ 0 < headerConsts buf)
    ⟨rfl, by simp⟩ fun i ks ⟨hlength, hnames⟩ => ?_) fun kernels ⟨hlength, hnames⟩ => ?_
  · have hentry : bvbcHeaderSize + i * 16 + 16 ≤ constRegion buf := by
      have hi : i.val < headerKernels buf := i.isLt
      unfold constRegion
      omega
    refine Outcome.Sat.bind (unpackKernel_sat hentry hconst) fun k hk => ?_
    refine ⟨by simp [hlength], fun x hx => ?_⟩
    rcases List.mem_append.mp hx with hx | hx
    · exact hnames x hx
    · exact List.mem_singleton.mp hx ▸ hk
  · split_ifs with hpool
    · trivial
    · exact {
        kernels := hlength
        names := hnames
        nconst := rfl
        constBlob := rfl
        namesLen_le := not_lt.mp hpool
        ninsn := rfl
        insns := rfl
        fits := hfits }

/-! ### The views -/

theorem length_le_namesLen (kernels : List BvbcKernel) : kernels.length ≤ namesLen kernels := by
  induction kernels with
  | nil => simp
  | cons k ks ih =>
      simp only [namesLen, List.map_cons, List.sum_cons, List.length_cons] at ih ⊢
      omega

theorem UnpackedFrom.withinRegions_iff {buf : List Byte} {img : BvbcImage}
    (h : UnpackedFrom buf img) : img.WithinRegions buf ↔ headerKernels buf = 0 := by
  have hcount := length_le_namesLen img.kernels
  have hlength := h.kernels
  constructor
  · intro hviews
    have hend := hviews.consts.2.2
    rw [h.constBlob, h.nconst] at hend
    unfold insnRegion at hend
    simp only at hend
    omega
  · intro hzero
    have hnil : img.kernels = [] := List.length_eq_zero_iff.mp (hlength.trans hzero)
    refine ⟨fun k hk => (h.names k hk).1, ?_, insnRegion buf, h.insns, le_refl _, ?_, h.fits⟩
    · simp [h.constBlob, h.nconst, hnil, namesLen, insnRegion]
    · rw [h.ninsn]
      exact le_refl _

/-- **The reader's views.** `bvbc_unpack` never reads outside the buffer, and the views of an image
it accepts lie in the regions of the header exactly when the header announces no kernel. -/
theorem bvbcUnpack_withinRegions_iff (buf : List Byte) :
    (∀ off, bvbcUnpack buf ≠ .undefined off) ∧
      ∀ img, bvbcUnpack buf = .ok img → (img.WithinRegions buf ↔ headerKernels buf = 0) := by
  refine ⟨fun off hund => ?_, fun img hok => ?_⟩
  · exact (bvbcUnpack_sat buf).of_eq_undefined hund
  · exact ((bvbcUnpack_sat buf).of_eq_ok hok).withinRegions_iff

/-- The container of one kernel `k` without instructions and user constants. -/
def oneKernelBuffer : List Byte :=
  toLE 8 bvbcMagic ++ toLE 4 bvbcVersion ++ toLE 4 0 ++ toLE 4 1 ++ toLE 4 2 ++ toLE 4 0 ++
    toLE 4 0 ++ (toLE 4 0 ++ toLE 4 0 ++ toLE 4 0 ++ toLE 4 0) ++ cstr "k" ++ [0]

/-- Its constant region is the two bytes of the name, and the constants are the two bytes after
it. -/
theorem not_forall_bvbcUnpack_withinRegions :
    ¬ ∀ buf img, bvbcUnpack buf = .ok img → img.WithinRegions buf := by
  intro h
  have hviews := h oneKernelBuffer _ rfl
  exact absurd hviews.consts.2.2 (by decide)

end BradVector
