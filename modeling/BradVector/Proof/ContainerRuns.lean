import BradVector.Braddev
import BradVector.Proof.Passes
import BradVector.Proof.Repack
import BradVector.Proof.Runs

/-!
# From the source to the run

Running a program from its container is running it from the assembler's image. A device reads its
image only where it fetches and where it looks for a kernel, so a run is the same over any image
that agrees in that. The image the assembler makes is one that survives packing in those respects.
-/

namespace BradVector

open CSem

/-! ### A device with another image -/

def Device.withImage (img : BvbcImage) (d : Device) : Device := { d with img }

def Exec.withImage (img : BvbcImage) : Exec → Exec
  | .ok d => .ok (d.withImage img)
  | .stop d => .stop (d.withImage img)
  | .undefined a => .undefined a

def StepResult.withImage (img : BvbcImage) (r : StepResult) : StepResult :=
  r.map fun p => (p.1, p.2.withImage img)

section WithImage

variable {F : HostMath} {img : BvbcImage} {d : Device}

theorem Exec.withImage_bind {x : Exec} {f g : Device → Exec}
    (h : ∀ d, f (d.withImage img) = (g d).withImage img) :
    Outcome.bind (Exec.withImage img x) f = Exec.withImage img (Outcome.bind x g) := by
  cases x with
  | ok d => exact h d
  | stop d => rfl
  | undefined a => rfl

theorem forRange_withImage {n : Nat} {body : Fin n → Device → Exec}
    (h : ∀ i d, body i (d.withImage img) = (body i d).withImage img) (d : Device) :
    Outcome.forRange n body (d.withImage img) = Exec.withImage img (Outcome.forRange n body d) := by
  induction n generalizing d with
  | zero => rfl
  | succ n ih =>
      rw [Outcome.forRange_succ, Outcome.forRange_succ, h]
      exact Exec.withImage_bind fun d => ih (fun i => h i.succ) d

theorem enabled_withImage (pred : BitVec 8) (l : Fin warpSize) :
    (d.withImage img).enabled pred l = d.enabled pred l := rfl

theorem laneStep_withImage {pred : BitVec 8} {body : Fin warpSize → Local → LaneOutcome Local}
    (l : Fin warpSize) (d : Device) :
    laneStep pred body l (d.withImage img) = (laneStep pred body l d).withImage img := by
  unfold laneStep
  rw [enabled_withImage, enabled_eq]
  split_ifs
  · rfl
  · simp only [Outcome.bind_eq_bind, Outcome.ok_bind]
    rw [show (d.withImage img).local l = d.local l from rfl]
    split_ifs
    · cases body l (d.local l) <;> rfl
    · rfl

theorem forLanes_withImage (pred : BitVec 8) (body : Fin warpSize → Local → LaneOutcome Local)
    (d : Device) :
    forLanes pred body (d.withImage img) = Exec.withImage img (forLanes pred body d) :=
  forRange_withImage laneStep_withImage d

theorem anyEnabled_withImage (pred : BitVec 8) (ls : List (Fin warpSize)) :
    anyEnabled (d.withImage img) pred ls = anyEnabled d pred ls := by
  induction ls with
  | nil => rfl
  | cons l ls ih => rw [anyEnabled, anyEnabled, enabled_withImage, ih]

theorem retStep_withImage (l : Fin warpSize) (d : Device) :
    retStep l (d.withImage img) = (retStep l d).withImage img := by
  have hlane : (d.withImage img).lane l = d.lane l := rfl
  unfold retStep
  by_cases hl : d.laneActive l = true
  · rw [if_pos hl, if_pos (show (d.withImage img).laneActive l = true from hl)]
    by_cases hsp : (d.lane l).retsp.val = 0
    · simp only [hlane, hsp]
      rfl
    · simp only [hlane, hsp]
      rfl
  · rw [if_neg hl, if_neg (show ¬ (d.withImage img).laneActive l = true from hl)]
    rfl

theorem executeInsn_withImage (d : Device) (i : BvInsn) :
    executeInsn F (d.withImage img) i = (executeInsn F d i).withImage img := by
  unfold executeInsn
  rw [show (d.withImage img).warp = d.warp from rfl]
  cases effect F d.warp.pc d.warp.cycles i with
  | lanes body =>
      simp only [forLanes_withImage]
      exact Exec.withImage_bind fun d => rfl
  | branch =>
      simp only [anyEnabled_withImage]
      cases h : anyEnabled d i.pred (List.finRange warpSize) with
      | ok b => cases b <;> rfl
      | stop e =>
          exact ((anyEnabled_sat (d := d) i.pred (List.finRange warpSize)).of_eq_stop h).elim
      | undefined a => rfl
  | call =>
      simp only [forLanes_withImage]
      exact Exec.withImage_bind fun d => rfl
  | ret => exact forRange_withImage retStep_withImage d
  | barrier => rfl
  | exit => rfl
  | trap => rfl

end WithImage

/-! ### Runs -/

/-- The two images have the same kernels and the same code. -/
structure BvbcImage.SameProgram (img img' : BvbcImage) : Prop where
  kernels : img'.kernels = img.kernels
  ninsn : img'.ninsn = img.ninsn
  insns : ∀ i < img.ninsn, img'.insn i = img.insn i

section Runs

variable {F : HostMath} {img img' : BvbcImage} {d : Device}

theorem Exec.withImage_result (x : Exec) : (x.withImage img).result = x.result.withImage img := by
  cases x <;> rfl

theorem bvrtStep_withImage (h : d.img.SameProgram img) :
    bvrtStep F (d.withImage img) = (bvrtStep F d).withImage img := by
  unfold bvrtStep
  rw [show (d.withImage img).warp = d.warp from rfl, show (d.withImage img).img = img from rfl,
    h.ninsn]
  by_cases hactive : d.warp.active = 0
  · rw [if_pos hactive, if_pos hactive]
    rfl
  rw [if_neg hactive, if_neg hactive]
  by_cases hneg : d.warp.pc.toInt < 0
  · rw [if_pos hneg, if_pos hneg]
    rfl
  rw [if_neg hneg, if_neg hneg]
  by_cases hend : d.img.ninsn ≤ d.warp.pc.toNat
  · rw [if_pos hend, if_pos hend]
    rfl
  have hfetch : (d.withImage img).fetch = d.fetch :=
    congrArg bvDecode (h.insns _ (Nat.not_le.mp hend))
  rw [if_neg hend, if_neg hend, hfetch, ← Exec.withImage_result]
  exact congrArg Exec.result (executeInsn_withImage d.counted d.fetch)

theorem bvrtRunLoop_withImage (h : d.img.SameProgram img) (maxInsns fuel : Nat) :
    bvrtRunLoop F maxInsns fuel (d.withImage img) =
      (bvrtRunLoop F maxInsns fuel d).withImage img := by
  induction fuel generalizing d with
  | zero =>
      unfold bvrtRunLoop
      rw [show (d.withImage img).warp = d.warp from rfl]
      split_ifs <;> rfl
  | succ fuel ih =>
      unfold bvrtRunLoop
      rw [show (d.withImage img).warp = d.warp from rfl,
        show (d.withImage img).insns = d.insns from rfl, bvrtStep_withImage h]
      split_ifs
      · cases hstep : bvrtStep F d with
        | error a => rfl
        | ok p =>
            obtain ⟨st, e⟩ := p
            have himg : e.img = d.img := (bvrtStep_sameMachine hstep).1
            cases st with
            | ok => exact ih (himg ▸ h)
            | _ => rfl
      · rfl
      · rfl

theorem bvrtRun_withImage (h : d.img.SameProgram img) (maxInsns : Nat) :
    bvrtRun F (d.withImage img) maxInsns = (bvrtRun F d maxInsns).withImage img :=
  bvrtRunLoop_withImage h maxInsns _

theorem bvrtLaunch_withImage (h : d.img.SameProgram img) (kernel : List Byte) (args : List Word) :
    bvrtLaunch (d.withImage img) kernel args = (bvrtLaunch d kernel args).map
      (Device.withImage img) := by
  unfold bvrtLaunch bvbcFindKernel
  rw [show (d.withImage img).img = img from rfl, h.kernels]
  cases d.img.kernels.findIdx? fun k => cstrOf k.name = cstrOf kernel with
  | none => rfl
  | some ki =>
      dsimp only [bvrtReset, Device.withImage, Option.map_some]
      rw [h.kernels]

/-- **The same program** runs to the same end, on whatever device it is loaded into. -/
theorem runImage_withImage (h : img.SameProgram img') (d : Device) (kernel : Option (List Byte))
    (args : List Word) (maxInsns : Nat) :
    runImage F d kernel args maxInsns img' =
      (runImage F d kernel args maxInsns img).map (StepResult.withImage img') := by
  unfold runImage
  rw [h.kernels]
  generalize kernel.getD (img.kernels.getD 0 ⟨[], 0, 0⟩).name = name
  dsimp only
  have hlaunch := bvrtLaunch_withImage (d := bvrtLoad d img) h name args
  rw [show (bvrtLoad d img).withImage img' = bvrtLoad d img' from rfl] at hlaunch
  rw [hlaunch]
  cases hl : bvrtLaunch (bvrtLoad d img) name args with
  | none => rfl
  | some e =>
      have himg : e.img = img := by
        unfold bvrtLaunch at hl
        split at hl
        · cases hl
        · cases hl
          rfl
      rw [Option.map_some, Option.map_some, Option.map_some]
      exact congrArg some (bvrtRun_withImage (himg.symm ▸ h) maxInsns)

end Runs

/-! ### What the assembler builds -/

/-- An image on its way through the second pass. -/
structure Assembling (img : BvbcImage) : Prop where
  built : Built img
  entries : ∀ k ∈ img.kernels, k.entry.toNat ≤ img.ninsn
  consts : img.nconst = 0

section Assembling

variable {img img' : BvbcImage}

theorem Assembling.addKernel {name : List Byte} {nargs : Word} (h : Assembling img)
    (hadd : bvbcAddKernel img name (BitVec.ofNat 32 img.ninsn) nargs = some img') :
      Assembling img' := by
  obtain ⟨hninsn, -, hkernels⟩ := bvbcAddKernel_cases hadd
  refine ⟨h.built.addKernel hadd, fun k hk => ?_, ?_⟩
  · rw [hkernels, List.mem_append, List.mem_singleton] at hk
    rw [hninsn]
    rcases hk with hk | rfl
    · exact h.entries k hk
    · rw [BitVec.toNat_ofNat]
      exact Nat.mod_le _ _
  · unfold bvbcAddKernel at hadd
    split_ifs at hadd
    cases hadd
    exact h.consts

theorem Assembling.emit {insn : BitVec 64} (h : Assembling img)
    (hemit : bvbcEmit img insn = some img') :
    Assembling img' := by
  have hbuilt := h.built.emit hemit
  unfold bvbcEmit bvbcAddInsn32 at hemit
  split_ifs at hemit
  cases hemit
  exact ⟨hbuilt, fun k hk => (h.entries k hk).trans (Nat.le_succ _), h.consts⟩

theorem Assembling.line {a a' : BradcAsm} {lx lx' : Lexer} (h : Assembling a.img)
    (hok : pass2Line lx a = .ok (lx', a')) : Assembling a'.img := by
  obtain ⟨-, -, rfl⟩ | ⟨-, -, img, name, hadd, rfl⟩ | ⟨-, rfl⟩ | ⟨-, -, w, img, -, hemit, rfl⟩ :=
    pass2Line_cases hok
  · exact h
  · exact h.addKernel hadd
  · exact h
  · exact h.emit hemit

end Assembling

/-- What the assembler returns survives packing, and has no constants. -/
theorem bradcAssemble_assembling {source : List Byte} {words : List (BitVec 64)} {img : BvbcImage}
    (hwords : words.length = bvbcMaxInsn)
    (hok : bradcAssemble source { BvbcImage.zero with insns := .array words } = .ok img) :
    img.WellFormed ∧ (∀ k ∈ img.kernels, k.entry.toNat ≤ img.ninsn) ∧ img.nconst = 0 := by
  obtain ⟨a, b, hpass1, hpass2, -, rfl⟩ := bradcAssemble_eq_ok hok
  obtain ⟨-, himg⟩ := pass1_syms ⟨rfl, rfl⟩ rfl hpass1
  rw [lineLoop_eq fun h s lx' s' hline hok => pass2Line_skipLine hline hok] at hpass2
  have hstart : Assembling (pass2Start a).img := by
    have hzero : (pass2Start a).img = { BvbcImage.zero with insns := .array words } := by
      unfold pass2Start
      rw [himg]
      rfl
    rw [hzero]
    exact ⟨.zeroed hwords, fun k hk => absurd hk List.not_mem_nil, rfl⟩
  have hdone :=
    foldlM_ok (I := fun _ c => Assembling c.img) hpass2 hstart fun k _ c c' hc hstep => by
    obtain ⟨lx', hline⟩ := map_snd_eq_ok hstep
    exact hc.line hline
  obtain ⟨hkernels, hninsn, hpool, hnames, hpools, hconsts⟩ := hdone.built.wellFormed
  exact ⟨⟨hkernels, hninsn, hpool, hnames, hpools, hconsts⟩, hdone.entries, hdone.consts⟩

/-! ### The tool -/

/-- **From the source to the run.** A source file that `bradc` accepts is converted into a
container. `braddev run` refuses that if it has no instruction. Otherwise it runs an image each of
whose kernels, launched on any device with any arguments and run with any budget, comes to the same
end as in the image the assembler returned. -/
theorem cmdCvt_runs {source : List Byte} {words : List (BitVec 64)} {img : BvbcImage}
    (hwords : words.length = bvbcMaxInsn) (hpos : 0 < source.length)
    (hsize : source.length ≤ maxSourceSize)
    (hok : bradcAssemble source { BvbcImage.zero with insns := .array words } = .ok img)
    (fill : Nat → Byte) :
    ∃ file, cmdCvt words fill source = .ok file ∧
      (img.ninsn = 0 → ∀ F init kernel args, cmdRun F init kernel args file = .stop ()) ∧
      (img.ninsn ≠ 0 → ∃ img',
        (∀ F init kernel args, cmdRun F init kernel args file =
          .ok (runImage F (bvrtCreate bvrtMaxMem init) kernel args (2 ^ 30) img')) ∧
        ∀ F d kernel args maxInsns, runImage F d kernel args maxInsns img' =
          (runImage F d kernel args maxInsns img).map (StepResult.withImage img')) := by
  obtain ⟨hwell, hentries, hconsts⟩ := bradcAssemble_assembling hwords hok
  have hpool : img.stringPool.length ≤ 4096 := hwell.pool_le
  have hkern : img.kernels.length ≤ 256 := hwell.kernels_le
  have hninsn : img.ninsn ≤ 65536 := hwell.ninsn_le
  have hlen : ((List.range (bvbcSerializeSize img)).map fill).length = bvbcSerializeSize img := by
    simp
  have hpack := hwell.bvbcPack_eq hlen (hwell.packedSize_lt (by omega))
  have hunpack := hwell.bvbcUnpack_packed (by omega)
  have hfile : (packed img).length = packedSize img := packed_length hwell.consts
  have hload : loadImage (packed img) =
      if img.reloaded.ninsn = 0 then .stop () else .ok img.reloaded := by
    have hfits : ¬ ((packed img).length = 0 ∨ bvrtMaxMem < (packed img).length) := by
      rw [hfile]
      simp only [packedSize, bvbcHeaderSize, insnSize, bvrtMaxMem]
      omega
    rw [loadImage, if_neg hfits, hunpack]
    rfl
  have hreloaded : img.reloaded.ninsn = img.ninsn := rfl
  refine ⟨packed img, ?_, fun hzero F init kernel args => ?_, fun hsome => ⟨img.reloaded,
    fun F init kernel args => ?_, fun F d kernel args maxInsns => ?_⟩⟩
  · rw [cmdCvt, if_neg (by omega), hok]
    exact hpack
  · rw [cmdRun, hload, if_pos (hreloaded.trans hzero)]
    rfl
  · rw [cmdRun, hload, if_neg (hreloaded ▸ hsome)]
    rfl
  · exact runImage_withImage ⟨hwell.reloaded_kernels hentries, rfl, fun i hi =>
      hwell.insn_unpacked hi⟩ d kernel args maxInsns

/-- A kernel of one EXIT. -/
def exitSource : List Byte := cstr ".kernel k\nEXIT\n.end\n"

theorem exists_ok_of_map {α β ε : Type} {x : Except ε α} {f : α → β} {b : β}
    (h : x.toOption.map f = some b) : ∃ a, x = .ok a ∧ f a = b := by
  cases x with
  | error e => cases h
  | ok a => exact ⟨a, rfl, Option.some.inj h⟩

theorem exitSource_runs :
    ∃ file img img', cmdCvt (List.replicate bvbcMaxInsn 0) (fun _ => 0xAA) exitSource = .ok file ∧
      img.ninsn = 1 ∧
      cmdRun HostMath.integer (fun _ => 0) none [] file =
        .ok (runImage HostMath.integer (bvrtCreate bvrtMaxMem fun _ => 0) none [] (2 ^ 30) img') ∧
      runImage HostMath.integer (bvrtCreate 4096 fun _ => 0) none [] 10 img' =
        (runImage HostMath.integer (bvrtCreate 4096 fun _ => 0) none [] 10 img).map
          (StepResult.withImage img') := by
  obtain ⟨img, hok, hninsn⟩ := exists_ok_of_map (f := BvbcImage.ninsn) (b := 1)
    (show (bradcAssemble exitSource
      { BvbcImage.zero with insns := .array (List.replicate bvbcMaxInsn 0) }).toOption.map _ = _ by
        decide +kernel)
  obtain ⟨file, hcvt, -, hload⟩ := cmdCvt_runs List.length_replicate (by decide) (by decide) hok
    fun _ => 0xAA
  obtain ⟨img', himg', hruns⟩ := hload (by omega)
  exact ⟨file, img, img', hcvt, hninsn, himg' _ _ _ _, hruns _ _ _ _ _⟩

end BradVector
