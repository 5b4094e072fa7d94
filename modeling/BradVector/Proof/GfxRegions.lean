import BradVector.Bradgfx
import BradVector.Library.Commands
import Mathlib.Data.List.Basic
import Mathlib.Order.CompletePartialOrder
import Mathlib.Order.Interval.Set.Disjoint

/-!
# Regions of graphics memory

Buffers lie one behind the other, the code of every shader at the start of shader memory. What is in
use stays apart as long as there is one shader, and no buffer reaches its code from below or begins
on it.
-/

namespace BradVector

open CSem

/-- A call of the driver, with the pointers it is passed. -/
inductive GfxCall where
  | alloc (size : Size) (flags : Word)
  | free (buf : Option Nat)
  | create (code : Size) (size : Word)

/-- The driver with what has been returned to the caller: the buffers in use, and the shaders. -/
structure GfxSession where
  drv : GfxDriver
  inUse : List Nat
  shaders : List Nat

def GfxSession.start (buffers : Nat → GfxBuffer) : GfxSession := ⟨gfxDriverInit buffers, [], []⟩

def GfxSession.next (s : GfxSession) : GfxCall → GfxSession
  | .alloc size flags =>
      let r := gfxAllocBuffer s.drv size flags
      ⟨r.2, r.1.toList ++ s.inUse, s.shaders⟩
  | .free buf =>
      ⟨(gfxFreeBuffer s.drv buf).2, s.inUse.filter fun i => some i ≠ buf, s.shaders⟩
  | .create code size =>
      let r := gfxCreateShader s.drv code size
      ⟨r.2, s.inUse, r.1.toList ++ s.shaders⟩

/-- The addresses of a buffer, and those of a shader's code. -/
def GfxBuffer.range (b : GfxBuffer) : Set Nat := Set.Ico b.addr.toNat (b.addr.toNat + b.size.toNat)

def codeRange (addr : Size) (size : Word) : Set Nat := Set.Ico addr.toNat (addr.toNat + size.toNat)

def GfxShader.range (sh : GfxShader) : Set Nat := codeRange sh.codeAddr sh.codeSize

theorem mem_codeRange {size : Word} (h : size ≠ 0) :
    gfxShaderMem.toNat ∈ codeRange gfxShaderMem size := by
  have hpos : size.toNat ≠ 0 := fun hzero => h (BitVec.eq_of_toNat_eq hzero)
  exact ⟨Nat.le_refl _, by omega⟩

namespace GfxSession

/-- All regions in use, as the structures say. -/
def regions (s : GfxSession) : List (Set Nat) :=
  (s.inUse.map fun i => (s.drv.buffers i).range) ++
    s.shaders.map fun i => (s.drv.buffers i).asShader.range

/-- After the call all regions are disjoint, and the creation of a shader leaves the buffers in use
as they are. -/
structure Keeps (s : GfxSession) (c : GfxCall) : Prop where
  disjoint : (s.next c).regions.Pairwise Disjoint
  fields : ∀ code size, c = .create code size →
    ∀ i ∈ s.inUse, (s.next c).drv.buffers i = s.drv.buffers i

/-- The pages asked for end below the end of the address space. -/
def Bounded (s : GfxSession) : GfxCall → Prop
  | .alloc size _ => s.drv.nextAddr.toNat + (gfxPages size).toNat < 2 ^ 64
  | _ => True

/-- A buffer is not put on the code of a shader, nor the code of a shader, of which there is only
one, on a buffer in use. -/
def Clear (s : GfxSession) : GfxCall → Prop
  | .alloc size _ =>
      s.drv.numBuffers < gfxMaxBuffers → ∀ i ∈ s.shaders,
        Disjoint (Set.Ico s.drv.nextAddr.toNat (s.drv.nextAddr.toNat + (gfxPages size).toNat))
          (codeRange gfxShaderMem (s.drv.buffers i).asShader.codeSize)
  | .free _ => True
  | .create code size =>
      code ≠ 0 → size ≠ 0 → s.drv.freeSlot ≠ none →
        s.shaders = [] ∧
          ∀ i ∈ s.inUse, Disjoint (s.drv.buffers i).range (codeRange gfxShaderMem size)

/-! ### The calls -/

/-- Buffers in use lie below the next address, and a slot holds a buffer in use or a shader, not
both. -/
structure Inv (s : GfxSession) : Prop where
  inUse : ∀ i ∈ s.inUse, i < s.drv.numBuffers ∧ (s.drv.buffers i).refcount ≠ 0 ∧
    (s.drv.buffers i).addr.toNat + (s.drv.buffers i).size.toNat ≤ s.drv.nextAddr.toNat
  shaders : ∀ i ∈ s.shaders, i < s.drv.numBuffers ∧ i ∉ s.inUse ∧
    (s.drv.buffers i).asShader.codeAddr = gfxShaderMem ∧ (s.drv.buffers i).asShader.codeSize ≠ 0
  disjoint : s.regions.Pairwise Disjoint

variable {s : GfxSession}

theorem freeSlot_spec {drv : GfxDriver} {i : Nat} (h : drv.freeSlot = some i) :
    i < drv.numBuffers ∧ (drv.buffers i).refcount = 0 := by
  unfold GfxDriver.freeSlot at h
  constructor
  · exact List.mem_range.mp (List.mem_of_find?_eq_some h)
  · simpa using List.find?_some h

section Alloc

variable {size : Size} {flags : Word}

theorem next_alloc_of_full (h : gfxMaxBuffers ≤ s.drv.numBuffers) :
    s.next (.alloc size flags) = s := by
  have hfull : gfxAllocBuffer s.drv size flags = (none, s.drv) := if_pos h
  simp only [next, hfull]
  rfl

theorem next_alloc (h : s.drv.numBuffers < gfxMaxBuffers) :
    s.next (.alloc size flags) =
      ⟨{ buffers := Function.update s.drv.buffers s.drv.numBuffers
            ⟨s.drv.nextAddr, gfxPages size, flags, 1⟩
         numBuffers := s.drv.numBuffers + 1
         nextAddr := s.drv.nextAddr + gfxPages size
         nextHandle := s.drv.nextHandle },
        s.drv.numBuffers :: s.inUse, s.shaders⟩ := by
  have hroom : gfxAllocBuffer s.drv size flags = _ := if_neg (Nat.not_le.mpr h)
  simp only [next, hroom]
  rfl

/-- The slots in use are others than the one that is taken. -/
theorem Inv.regions_alloc (hs : s.Inv) (h : s.drv.numBuffers < gfxMaxBuffers) :
    (s.next (.alloc size flags)).regions =
      Set.Ico s.drv.nextAddr.toNat (s.drv.nextAddr.toNat + (gfxPages size).toNat) :: s.regions := by
  rw [next_alloc h]
  unfold regions
  rw [List.map_cons, List.cons_append]
  congr 1
  · dsimp only
    rw [Function.update_self]
    rfl
  · congr 1
    · apply List.map_congr_left
      intro i hi
      dsimp only
      rw [Function.update_of_ne (hs.inUse i hi).1.ne]
    · apply List.map_congr_left
      intro i hi
      dsimp only
      rw [Function.update_of_ne (hs.shaders i hi).1.ne]

theorem Inv.keeps_alloc (hs : s.Inv) :
    s.Keeps (.alloc size flags) ↔ s.Clear (.alloc size flags) := by
  have hfields : ∀ code csize, GfxCall.alloc size flags = .create code csize →
      ∀ i ∈ s.inUse, (s.next (.alloc size flags)).drv.buffers i = s.drv.buffers i := nofun
  by_cases hroom : s.drv.numBuffers < gfxMaxBuffers
  · have hregions : (s.next (.alloc size flags)).regions = _ := hs.regions_alloc hroom
    have hcode : ∀ i ∈ s.shaders, (s.drv.buffers i).asShader.range =
        codeRange gfxShaderMem (s.drv.buffers i).asShader.codeSize := by
      intro i hi
      obtain ⟨_, _, haddr, _⟩ := hs.shaders i hi
      rw [GfxShader.range, haddr]
    constructor
    · intro hkeeps _ i hi
      have hdisjoint := hkeeps.disjoint
      rw [hregions, List.pairwise_cons] at hdisjoint
      rw [← hcode i hi]
      exact hdisjoint.1 _ (List.mem_append_right _ (List.mem_map_of_mem hi))
    · intro hclear
      refine ⟨?_, hfields⟩
      rw [hregions, List.pairwise_cons]
      refine ⟨?_, hs.disjoint⟩
      intro r hr
      obtain hbuffer | hshader := List.mem_append.mp hr
      · obtain ⟨i, hi, rfl⟩ := List.mem_map.mp hbuffer
        obtain ⟨_, _, hle⟩ := hs.inUse i hi
        apply Disjoint.symm
        rw [GfxBuffer.range, Set.Ico_disjoint_Ico]
        omega
      · obtain ⟨i, hi, rfl⟩ := List.mem_map.mp hshader
        rw [hcode i hi]
        exact hclear hroom i hi
  · constructor
    · intro _ hlt
      exact absurd hlt hroom
    · intro _
      refine ⟨?_, hfields⟩
      rw [next_alloc_of_full (Nat.not_lt.mp hroom)]
      exact hs.disjoint

theorem Inv.next_alloc (hs : s.Inv) (hbounded : s.Bounded (.alloc size flags))
    (hkeeps : s.Keeps (.alloc size flags)) : (s.next (.alloc size flags)).Inv := by
  refine ⟨?_, ?_, hkeeps.disjoint⟩ <;> by_cases hroom : s.drv.numBuffers < gfxMaxBuffers
  · have hnext : (s.drv.nextAddr + gfxPages size).toNat =
        s.drv.nextAddr.toNat + (gfxPages size).toNat := by
      rw [BitVec.toNat_add]
      exact Nat.mod_eq_of_lt hbounded
    rw [GfxSession.next_alloc hroom]
    intro i hi
    obtain rfl | hi := List.mem_cons.mp hi
    · dsimp only
      rw [Function.update_self, hnext]
      exact ⟨Nat.lt_succ_self _, (by decide : (1 : Word) ≠ 0), Nat.le_refl _⟩
    · obtain ⟨hlt, hcount, hle⟩ := hs.inUse i hi
      dsimp only
      rw [Function.update_of_ne hlt.ne, hnext]
      exact ⟨Nat.lt_succ_of_lt hlt, hcount, by omega⟩
  · rw [next_alloc_of_full (Nat.not_lt.mp hroom)]
    exact hs.inUse
  · rw [GfxSession.next_alloc hroom]
    intro i hi
    obtain ⟨hlt, hnot, hcode⟩ := hs.shaders i hi
    dsimp only
    rw [Function.update_of_ne hlt.ne]
    refine ⟨Nat.lt_succ_of_lt hlt, ?_, hcode⟩
    rw [List.mem_cons]
    rintro (rfl | hi)
    · exact Nat.lt_irrefl _ hlt
    · exact hnot hi
  · rw [next_alloc_of_full (Nat.not_lt.mp hroom)]
    exact hs.shaders

end Alloc

section Free

variable {buf : Option Nat}

/-- A buffer keeps its region when its count changes, and so does a shader. -/
theorem free_fields (drv : GfxDriver) (buf : Option Nat) (i : Nat) :
    ((gfxFreeBuffer drv buf).2.buffers i).addr = (drv.buffers i).addr ∧
      ((gfxFreeBuffer drv buf).2.buffers i).size = (drv.buffers i).size ∧
      ((gfxFreeBuffer drv buf).2.buffers i).flags = (drv.buffers i).flags ∧
      (some i ≠ buf → (gfxFreeBuffer drv buf).2.buffers i = drv.buffers i) := by
  cases buf with
  | none => exact ⟨rfl, rfl, rfl, fun _ => rfl⟩
  | some j =>
      unfold gfxFreeBuffer GfxDriver.setBuffer
      dsimp only
      by_cases hij : i = j
      · subst hij
        rw [Function.update_self]
        exact ⟨rfl, rfl, rfl, fun hne => absurd rfl hne⟩
      · rw [Function.update_of_ne hij]
        exact ⟨rfl, rfl, rfl, fun _ => rfl⟩

theorem regions_free : (s.next (.free buf)).regions.Sublist s.regions := by
  have hrange : ∀ i, ((gfxFreeBuffer s.drv buf).2.buffers i).range = (s.drv.buffers i).range := by
    intro i
    obtain ⟨haddr, hsize, _⟩ := free_fields s.drv buf i
    rw [GfxBuffer.range, haddr, hsize]
    rfl
  have hcode : ∀ i, ((gfxFreeBuffer s.drv buf).2.buffers i).asShader.range =
      (s.drv.buffers i).asShader.range := by
    intro i
    obtain ⟨_, haddr, hsize, _⟩ := free_fields s.drv buf i
    unfold GfxShader.range GfxBuffer.asShader
    rw [haddr, hsize]
  unfold regions next
  simp only [hrange, hcode]
  exact (List.filter_sublist.map _).append_right _

theorem Inv.keeps_free (hs : s.Inv) : s.Keeps (.free buf) :=
  ⟨hs.disjoint.sublist regions_free, nofun⟩

theorem Inv.next_free (hs : s.Inv) : (s.next (.free buf)).Inv := by
  have hcounters : (gfxFreeBuffer s.drv buf).2.numBuffers = s.drv.numBuffers ∧
      (gfxFreeBuffer s.drv buf).2.nextAddr = s.drv.nextAddr := by
    cases buf <;> exact ⟨rfl, rfl⟩
  obtain ⟨hnum, hnext⟩ := hcounters
  refine ⟨?_, ?_, hs.keeps_free.disjoint⟩
  · intro i hi
    obtain ⟨hi, hne⟩ := List.mem_filter.mp hi
    obtain ⟨_, _, _, hsame⟩ := free_fields s.drv buf i
    unfold next
    dsimp only
    rw [hnum, hnext, hsame (of_decide_eq_true hne)]
    exact hs.inUse i hi
  · intro i hi
    obtain ⟨hlt, hnot, haddr, hsize⟩ := hs.shaders i hi
    obtain ⟨_, haddr', hsize', _⟩ := free_fields s.drv buf i
    unfold next GfxBuffer.asShader
    dsimp only
    rw [hnum, haddr', hsize']
    exact ⟨hlt, fun hi => hnot (List.mem_of_mem_filter hi), haddr, hsize⟩

end Free

section Create

variable {code : Size} {size : Word}

/-- The call finds a slot for the shader. -/
def Creates (s : GfxSession) (code : Size) (size : Word) (i : Nat) : Prop :=
  code ≠ 0 ∧ size ≠ 0 ∧ s.drv.freeSlot = some i

theorem next_create_of_refused (h : ∀ i, ¬ s.Creates code size i) :
    s.next (.create code size) = s := by
  have hrefused : gfxCreateShader s.drv code size = (none, s.drv) := by
    unfold gfxCreateShader
    by_cases hnull : code = 0 ∨ size = 0
    · rw [if_pos hnull]
    · rw [if_neg hnull]
      obtain ⟨hcode, hsize⟩ := not_or.mp hnull
      cases hslot : s.drv.freeSlot with
      | none => rfl
      | some i => exact absurd ⟨hcode, hsize, hslot⟩ (h i)
  simp only [next, hrefused]
  rfl

theorem next_create {i : Nat} (h : s.Creates code size i) :
    s.next (.create code size) =
      ⟨{ s.drv.setBuffer i (GfxShader.asBuffer ⟨s.drv.nextHandle, gfxShaderMem, size, 8⟩) with
          nextHandle := s.drv.nextHandle + 1 },
        s.inUse, i :: s.shaders⟩ := by
  obtain ⟨hcode, hsize, hslot⟩ := h
  have hcreates : gfxCreateShader s.drv code size = _ := if_neg (not_or.mpr ⟨hcode, hsize⟩)
  simp only [hslot] at hcreates
  simp only [next, hcreates]
  unfold GfxDriver.setBuffer
  simp only [Function.update_idem]
  rfl

/-- The slot of the new shader is not one of a buffer in use. -/
theorem Inv.buffers_create (hs : s.Inv) : ∀ i ∈ s.inUse,
    (s.next (.create code size)).drv.buffers i = s.drv.buffers i := by
  by_cases hcreates : ∃ i, s.Creates code size i
  · obtain ⟨i, hi⟩ := hcreates
    rw [next_create hi]
    intro j hj
    apply Function.update_of_ne
    rintro rfl
    exact (hs.inUse j hj).2.1 (freeSlot_spec hi.2.2).2
  · rw [next_create_of_refused (not_exists.mp hcreates)]
    exact fun _ _ => rfl

theorem Inv.shaders_create (hs : s.Inv) : ∀ i ∈ (s.next (.create code size)).shaders,
    i < (s.next (.create code size)).drv.numBuffers ∧ i ∉ s.inUse ∧
      ((s.next (.create code size)).drv.buffers i).asShader.codeAddr = gfxShaderMem ∧
      ((s.next (.create code size)).drv.buffers i).asShader.codeSize ≠ 0 := by
  by_cases hcreates : ∃ i, s.Creates code size i
  · obtain ⟨i, hi⟩ := hcreates
    obtain ⟨hlt, hfree⟩ := freeSlot_spec hi.2.2
    have hnot : i ∉ s.inUse := fun hj => (hs.inUse i hj).2.1 hfree
    rw [next_create hi]
    intro j hj
    unfold GfxDriver.setBuffer
    dsimp only
    by_cases hji : j = i
    · subst hji
      rw [Function.update_self]
      exact ⟨hlt, hnot, rfl, hi.2.1⟩
    · rw [Function.update_of_ne hji]
      obtain hj | hj := List.mem_cons.mp hj
      · exact absurd hj hji
      · exact hs.shaders j hj
  · rw [next_create_of_refused (not_exists.mp hcreates)]
    exact hs.shaders

/-- The regions after a shader has been created. -/
theorem Inv.regions_create (hs : s.Inv) {i : Nat} (hi : s.Creates code size i) :
    (s.next (.create code size)).regions =
      (s.inUse.map fun j => (s.drv.buffers j).range) ++ codeRange gfxShaderMem size ::
        s.shaders.map fun j => ((s.next (.create code size)).drv.buffers j).asShader.range := by
  have hbuffers : ∀ j ∈ s.inUse, (s.next (.create code size)).drv.buffers j = s.drv.buffers j :=
    hs.buffers_create
  rw [next_create hi] at hbuffers ⊢
  unfold regions
  congr 1
  · apply List.map_congr_left
    intro j hj
    rw [hbuffers j hj]
  · rw [List.map_cons]
    congr 1
    unfold GfxDriver.setBuffer
    dsimp only
    rw [Function.update_self]
    rfl

/-- The code of any two shaders begins at the same address. -/
theorem Inv.keeps_create (hs : s.Inv) : s.Keeps (.create code size) ↔
    s.Clear (.create code size) := by
  have hfields : ∀ code' size', GfxCall.create code size = .create code' size' →
      ∀ i ∈ s.inUse, (s.next (.create code size)).drv.buffers i = s.drv.buffers i :=
    fun _ _ _ => hs.buffers_create
  by_cases hcreates : ∃ i, s.Creates code size i
  · obtain ⟨i, hi⟩ := hcreates
    have hregions := hs.regions_create hi
    constructor
    · intro hkeeps _ hsize _
      have hdisjoint := hkeeps.disjoint
      rw [hregions, List.pairwise_append, List.pairwise_cons] at hdisjoint
      obtain ⟨_, ⟨hcode, _⟩, hcross⟩ := hdisjoint
      constructor
      · apply List.eq_nil_iff_forall_not_mem.mpr
        intro j hj
        have hshaders : j ∈ (s.next (.create code size)).shaders := by
          rw [next_create hi]
          exact List.mem_cons_of_mem i hj
        obtain ⟨_, _, haddr, hne⟩ := hs.shaders_create j hshaders
        have hmem := mem_codeRange hne
        rw [← haddr] at hmem
        apply Set.disjoint_left.mp (hcode _ (List.mem_map_of_mem hj)) (mem_codeRange hsize)
        rw [haddr] at hmem
        rw [GfxShader.range, haddr]
        exact hmem
      · intro j hj
        exact hcross _ (List.mem_map_of_mem hj) _ List.mem_cons_self
    · intro hclear
      refine ⟨?_, hfields⟩
      obtain ⟨hnone, hbuffers⟩ := hclear hi.1 hi.2.1 (by rw [hi.2.2]; exact nofun)
      have hold := (List.pairwise_append.mp hs.disjoint).1
      rw [hregions, hnone, List.pairwise_append]
      refine ⟨hold, List.pairwise_singleton _ _, ?_⟩
      intro a ha b hb
      obtain ⟨j, hj, rfl⟩ := List.mem_map.mp ha
      rw [List.mem_singleton.mp hb]
      exact hbuffers j hj
  · have hsame := next_create_of_refused (not_exists.mp hcreates)
    constructor
    · intro _ hcode hsize hslot
      obtain ⟨i, hi⟩ := Option.ne_none_iff_exists'.mp hslot
      exact absurd ⟨i, hcode, hsize, hi⟩ hcreates
    · intro _
      refine ⟨?_, hfields⟩
      rw [hsame]
      exact hs.disjoint

theorem Inv.next_create (hs : s.Inv) (hkeeps : s.Keeps (.create code size)) :
    (s.next (.create code size)).Inv := by
  have hsame : (s.next (.create code size)).inUse = s.inUse ∧
      (s.next (.create code size)).drv.numBuffers = s.drv.numBuffers ∧
      (s.next (.create code size)).drv.nextAddr = s.drv.nextAddr := by
    by_cases hcreates : ∃ i, s.Creates code size i
    · obtain ⟨i, hi⟩ := hcreates
      rw [GfxSession.next_create hi]
      exact ⟨rfl, rfl, rfl⟩
    · rw [next_create_of_refused (not_exists.mp hcreates)]
      exact ⟨rfl, rfl, rfl⟩
  obtain ⟨hinUse, hnum, hnext⟩ := hsame
  refine ⟨?_, ?_, hkeeps.disjoint⟩
  · intro i hi
    rw [hinUse] at hi
    rw [hnum, hnext, hs.buffers_create i hi]
    exact hs.inUse i hi
  · intro i hi
    rw [hinUse]
    exact hs.shaders_create i hi

end Create

/-! ### Runs -/

theorem Inv.keeps_iff (hs : s.Inv) (c : GfxCall) : s.Keeps c ↔ s.Clear c := by
  cases c with
  | alloc size flags => exact hs.keeps_alloc
  | free buf => exact iff_of_true hs.keeps_free trivial
  | create code size => exact hs.keeps_create

theorem Inv.next (hs : s.Inv) {c : GfxCall} (hbounded : s.Bounded c) (hkeeps : s.Keeps c) :
    (s.next c).Inv := by
  cases c with
  | alloc size flags => exact hs.next_alloc hbounded hkeeps
  | free buf => exact hs.next_free
  | create code size => exact hs.next_create hkeeps

theorem inv_start (buffers : Nat → GfxBuffer) : (start buffers).Inv :=
  ⟨nofun, nofun, List.Pairwise.nil⟩

end GfxSession

/-- Regions stay disjoint as long as the calls keep buffers and code apart. -/
theorem gfx_regions_disjoint_iff (buffers : Nat → GfxBuffer) (calls : List GfxCall)
    (hbounded : Throughout GfxSession.next GfxSession.Bounded (.start buffers) calls) :
    Throughout GfxSession.next GfxSession.Keeps (.start buffers) calls ↔
      Throughout GfxSession.next GfxSession.Clear (.start buffers) calls :=
  throughout_iff hbounded (GfxSession.inv_start buffers) (fun _ c hs _ => hs.keeps_iff c)
    fun _ _ hs hbounded hkeeps => hs.next hbounded hkeeps

/-- Two buffers, and a shader in the slot of the first. -/
def oneShader : List GfxCall := [.alloc 100000 1, .alloc 4096 0, .free (some 0), .create 4096 1024]

theorem oneShader_regions_disjoint :
    Throughout GfxSession.next GfxSession.Keeps (.start fun _ => ⟨0, 0, 0, 0⟩) oneShader := by
  apply (gfx_regions_disjoint_iff (fun _ => ⟨0, 0, 0, 0⟩) oneShader ?_).mpr
  · refine ⟨fun _ => nofun, fun _ => nofun, trivial, fun _ _ _ => ⟨rfl, ?_⟩, trivial⟩
    intro i hi
    obtain rfl : i = 1 := List.mem_singleton.mp hi
    exact Set.Ico_disjoint_Ico.mpr (by decide)
  · exact ⟨show _ < 2 ^ 64 by decide, show _ < 2 ^ 64 by decide, trivial, trivial, trivial⟩

/-- Two buffers, and a shader in the slot of either. -/
def twoShaders : List GfxCall :=
  [.alloc 4096 0, .alloc 4096 0, .free (some 0), .free (some 1), .create 4096 16, .create 4096 16]

theorem twoShaders_not_disjoint :
    ¬ Throughout GfxSession.next GfxSession.Keeps (.start fun _ => ⟨0, 0, 0, 0⟩) twoShaders := by
  intro hkeeps
  obtain ⟨_, _, _, _, _, hsecond, _⟩ := hkeeps
  have hdisjoint : Disjoint (codeRange gfxShaderMem 16) (codeRange gfxShaderMem 16) :=
    (List.pairwise_cons.mp hsecond.disjoint).1 _ List.mem_cons_self
  exact Set.disjoint_left.mp hdisjoint (mem_codeRange (by decide)) (mem_codeRange (by decide))

end BradVector
