import BradVector.Library.Commands
import BradVector.WasmBridge

/-!
# Runs of the browser bridge

What the globals lead to stays clear of what the allocator hands out as long as the arena is not
reset under them.
-/

namespace BradVector.Wasm

open CSem

/-! ### The property of a state -/

/-- What `malloc` returns on requests that are made one after the other. -/
def Bridge.mallocs : List Nat → Bridge → List Block
  | [], _ => []
  | n :: ns, b =>
      match (malloc n).run b with
      | (some r, b) => r :: mallocs ns b
      | (none, b) => mallocs ns b

/-- Nothing was handed out over a block the globals then led to. -/
def Bridge.Safe (b : Bridge) : Prop := ∀ h ∈ b.handed, ∀ r ∈ h.held, ¬ h.block.Overlaps r

/-- Nothing will be: no `malloc` of up to the largest device memory returns a block over one the
globals lead to. -/
def Bridge.Reserved (b : Bridge) : Prop :=
  ∀ r ∈ b.reachable, ∀ ns : List Nat, (∀ n ∈ ns, n ≤ bvrtMaxMem) → ∀ m ∈ b.mallocs ns,
    ¬ m.Overlaps r

structure Bridge.Kept (b : Bridge) : Prop where
  safe : b.Safe
  reserved : b.Reserved

/-! ### The invariant -/

/-- A block below the break. -/
def Bridge.Below (b : Bridge) (r : Block) : Prop := 0 < r.len ∧ r.stop ≤ b.hb

structure Bridge.Sound (b : Bridge) : Prop where
  hb_le : b.hb ≤ arenaSize
  below : ∀ r ∈ b.reachable, b.Below r
  safe : b.Safe

/-- The globals are as they were, and the break has only moved forward. -/
structure Bridge.Grows (b b' : Bridge) : Prop where
  prog : b'.prog = b.prog
  sess : b'.sess = b.sess
  bvml : b'.bvml = b.bvml
  bvn : b'.bvn = b.bvn
  hb_le : b.hb ≤ b'.hb
  sound : b'.Sound

section Grows

variable {b b' b'' : Bridge} {r : Block}

theorem Bridge.Sound.grows_refl (h : b.Sound) : b.Grows b := ⟨rfl, rfl, rfl, rfl, le_rfl, h⟩

theorem Bridge.Grows.trans (h : b.Grows b') (h' : b'.Grows b'') : b.Grows b'' :=
  ⟨h'.prog.trans h.prog, h'.sess.trans h.sess, h'.bvml.trans h.bvml, h'.bvn.trans h.bvn,
    h.hb_le.trans h'.hb_le, h'.sound⟩

theorem Bridge.Grows.below (h : b.Grows b') (hr : b.Below r) : b'.Below r :=
  ⟨hr.1, hr.2.trans h.hb_le⟩

end Grows

/-! ### What is allocated -/

/-- What the code allocates from `b` leaves the globals alone, and when it succeeds its blocks are
below the break. -/
def Bridge.Allocates (b : Bridge) (x : BridgeM α) (blocks : α → List Block) : Prop :=
  ∀ o b', x.run b = (o, b') → b.Grows b' ∧ ∀ a ∈ o, ∀ r ∈ blocks a, b'.Below r

theorem run_bind {α β : Type} (x : BridgeM α) (f : α → BridgeM β) (b : Bridge) :
    (x >>= f).run b =
      match x.run b with
      | (some a, b') => (f a).run b'
      | (none, b') => (none, b') := by
  rw [OptionT.run_bind, Option.elimM]
  rcases hfirst : x.run b with ⟨_ | a, b'⟩
  · simp only [bind, StateT.bind, hfirst]
    rfl
  · simp only [bind, StateT.bind, hfirst]
    rfl

theorem run_malloc (n : Nat) (b : Bridge) :
    (malloc n).run b =
      if arenaSize < sizeT (b.hb + sizeT (n + 15) / 16 * 16) then (none, b)
      else
        (some ⟨b.hb, sizeT (n + 15) / 16 * 16⟩,
          { b with
            hb := sizeT (b.hb + sizeT (n + 15) / 16 * 16)
            handed := b.handed ++ [⟨⟨b.hb, sizeT (n + 15) / 16 * 16⟩, b.reachable⟩] }) := by
  unfold malloc
  rw [run_bind]
  show (if arenaSize < sizeT (b.hb + sizeT (n + 15) / 16 * 16) then throw ()
      else (do set _; return _) : BridgeM Block).run b = _
  split
  · rfl
  · rfl


section Allocates

variable {α β : Type} {b : Bridge} {blocks : α → List Block} {blocks' : β → List Block}

theorem Bridge.Allocates.pure {a : α} (h : b.Sound) (ha : ∀ r ∈ blocks a, b.Below r) :
    b.Allocates (pure a) blocks := by
  rintro o b' ⟨⟩
  refine ⟨h.grows_refl, fun a' ha' => ?_⟩
  cases ha'
  exact ha

theorem Bridge.Allocates.throw (h : b.Sound) : b.Allocates (throw ()) blocks := by
  rintro o b' ⟨⟩
  exact ⟨h.grows_refl, nofun⟩

/-- What was below the break stays there while the rest allocates. -/
theorem Bridge.Allocates.bind {x : BridgeM α} {f : α → BridgeM β} (hx : b.Allocates x blocks)
    (hf : ∀ a b', b.Grows b' → (∀ r ∈ blocks a, b'.Below r) → b'.Allocates (f a) blocks') :
    b.Allocates (x >>= f) blocks' := by
  intro o b'' hrun
  rcases hfirst : x.run b with ⟨_ | a, b'⟩
  · obtain ⟨hgrows, -⟩ := hx _ _ hfirst
    rw [run_bind, hfirst] at hrun
    cases hrun
    exact ⟨hgrows, nofun⟩
  · obtain ⟨hgrows, hblocks⟩ := hx _ _ hfirst
    rw [run_bind, hfirst] at hrun
    obtain ⟨hgrows', hblocks'⟩ := hf a b' hgrows (hblocks a rfl) _ _ hrun
    exact ⟨hgrows.trans hgrows', hblocks'⟩

end Allocates

theorem sizeT_of_le {n : Nat} (hn : n ≤ arenaSize + bvrtMaxMem + 15) : sizeT n = n := by
  unfold arenaSize bvrtMaxMem at hn
  unfold sizeT
  omega

/-- The sums of `malloc` do not wrap for requests of this size. -/
theorem run_malloc_of_le {b : Bridge} {n : Nat} (hhb : b.hb ≤ arenaSize) (hn : n ≤ bvrtMaxMem) :
    (malloc n).run b =
      if arenaSize < b.hb + (n + 15) / 16 * 16 then (none, b)
      else
        (some ⟨b.hb, (n + 15) / 16 * 16⟩,
          { b with
            hb := b.hb + (n + 15) / 16 * 16
            handed := b.handed ++ [⟨⟨b.hb, (n + 15) / 16 * 16⟩, b.reachable⟩] }) := by
  have hround : sizeT (n + 15) = n + 15 := sizeT_of_le (by omega)
  have hsum : sizeT (b.hb + (n + 15) / 16 * 16) = b.hb + (n + 15) / 16 * 16 :=
    sizeT_of_le (by omega)
  rw [run_malloc, hround, hsum]

section Allocators

variable {b : Bridge}

/-- A block above the break leaves everything below it alone. -/
theorem Bridge.Sound.hand (h : b.Sound) {n : Nat} (hle : b.hb + n ≤ arenaSize) :
    b.Grows { b with hb := b.hb + n, handed := b.handed ++ [⟨⟨b.hb, n⟩, b.reachable⟩] } := by
  refine ⟨rfl, rfl, rfl, rfl, Nat.le_add_right _ _, hle, fun r hr => ?_, fun e he r hr => ?_⟩
  · obtain ⟨hpos, hstop⟩ := h.below r hr
    exact ⟨hpos, hstop.trans (Nat.le_add_right _ _)⟩
  · rcases List.mem_append.mp he with he | he
    · exact h.safe e he r hr
    · obtain rfl := List.mem_singleton.mp he
      exact not_overlaps_of_stop_le (h.below r hr).2

theorem Bridge.Sound.malloc (h : b.Sound) {n : Nat} (hpos : 0 < n) (hn : n ≤ bvrtMaxMem) :
    b.Allocates (malloc n) fun r => [r] := by
  intro o b' hrun
  rw [run_malloc_of_le h.hb_le hn] at hrun
  split at hrun
  · cases hrun
    exact ⟨h.grows_refl, nofun⟩
  · next hroom =>
      cases hrun
      refine ⟨h.hand (not_lt.mp hroom), fun r hr r' hr' => ?_⟩
      cases hr
      obtain rfl := List.mem_singleton.mp hr'
      exact ⟨show 0 < (n + 15) / 16 * 16 by omega, le_rfl⟩

theorem Bridge.Sound.calloc (h : b.Sound) {n s : Nat} (hpos : 0 < n * s) (hn : n * s ≤ bvrtMaxMem) :
    b.Allocates (calloc n s) fun r => [r] := by
  have hsize : sizeT (n * s) = n * s := sizeT_of_le (by omega)
  rw [Wasm.calloc, hsize]
  exact h.malloc hpos hn

theorem Bridge.Sound.bradlibCompile (h : b.Sound) (source : List Byte) :
    b.Allocates (bradlibCompile source) ProgramAt.blocks := by
  apply (h.calloc (by decide) (by decide)).bind
  intro self b₁ hgrows₁ hself
  apply (hgrows₁.sound.calloc (by decide) (by decide)).bind
  intro insns b₂ hgrows₂ hinsns
  split
  · apply Allocates.pure hgrows₂.sound
    intro r hr
    rcases List.mem_cons.mp hr with rfl | hr
    · exact hgrows₂.below (hself r List.mem_cons_self)
    · exact hinsns r hr
  · exact Allocates.throw hgrows₂.sound

theorem Bridge.Sound.bvrtCreate (h : b.Sound) (memBytes : Nat) :
    b.Allocates (bvrtCreate memBytes) DeviceAt.blocks := by
  unfold Wasm.bvrtCreate
  extract_lets asked bytes
  have hpos : 0 < bytes := by
    unfold bytes asked bvrtMaxMem
    split <;> split <;> omega
  have hmax : bytes ≤ bvrtMaxMem := by
    unfold bytes
    split <;> omega
  apply (h.calloc (by decide) (by decide)).bind
  intro self b₁ hgrows₁ hself
  apply (hgrows₁.sound.malloc hpos hmax).bind
  intro mem b₂ hgrows₂ hmem
  apply Allocates.pure hgrows₂.sound
  intro r hr
  rcases List.mem_cons.mp hr with rfl | hr
  · exact hgrows₂.below (hself r List.mem_cons_self)
  · exact hmem r hr

theorem Bridge.Sound.bradlibCreate (h : b.Sound) {prog : ProgramAt}
    (hprog : ∀ r ∈ prog.blocks, b.Below r)
    (memBytes : Nat) : b.Allocates (bradlibCreate prog memBytes) SessionAt.blocks := by
  apply (h.calloc (by decide) (by decide)).bind
  intro self b₁ hgrows₁ hself
  apply (hgrows₁.sound.bvrtCreate memBytes).bind
  intro dev b₂ hgrows₂ hdev
  apply Allocates.pure hgrows₂.sound
  intro r hr
  rcases List.mem_cons.mp hr with rfl | hr
  · exact hgrows₂.below (hself r List.mem_cons_self)
  · rcases List.mem_append.mp hr with hr | hr
    · exact hgrows₂.below (hgrows₁.below (hprog r hr))
    · exact hdev r hr

theorem Bridge.Sound.bvlibOpen (h : b.Sound) (kernelSrc : List Byte) (memBytes : Nat) :
    b.Allocates (bvlibOpen kernelSrc memBytes) ContextAt.blocks := by
  apply (h.calloc (by decide) (by decide)).bind
  intro self b₁ hgrows₁ hself
  apply (hgrows₁.sound.bradlibCompile kernelSrc).bind
  intro prog b₂ hgrows₂ hprog
  apply (hgrows₂.sound.bradlibCreate hprog memBytes).bind
  intro sess b₃ hgrows₃ hsess
  apply Allocates.pure hgrows₃.sound
  intro r hr
  rcases List.mem_cons.mp hr with rfl | hr
  · exact hgrows₃.below (hgrows₂.below (hself r List.mem_cons_self))
  · rcases List.mem_append.mp hr with hr | hr
    · exact hgrows₃.below (hprog r hr)
    · exact hsess r hr

end Allocators

/-! ### What is reserved -/

section Reserved

variable {b : Bridge}

theorem stacked_mallocs {ns : List Nat} (hhb : b.hb ≤ arenaSize) (hns : ∀ n ∈ ns, n ≤ bvrtMaxMem) :
    Stacked b.hb (b.mallocs ns) := by
  induction ns generalizing b with
  | nil => trivial
  | cons n ns ih =>
      obtain ⟨hn, hns⟩ := List.forall_mem_cons.mp hns
      rw [Bridge.mallocs, run_malloc_of_le hhb hn]
      by_cases hroom : arenaSize < b.hb + (n + 15) / 16 * 16
      · rw [if_pos hroom]
        exact ih hhb hns
      · rw [if_neg hroom]
        have hrest := ih (b := { b with
          hb := b.hb + (n + 15) / 16 * 16
          handed := b.handed ++ [⟨⟨b.hb, (n + 15) / 16 * 16⟩, b.reachable⟩] }) (not_lt.mp hroom) hns
        exact ⟨le_rfl, hrest⟩

theorem Bridge.Sound.kept (h : b.Sound) : b.Kept := by
  refine ⟨h.safe, fun r hr ns hns m hm => ?_⟩
  exact (stacked_mallocs h.hb_le hns).not_overlaps (h.below r hr).2 m hm

/-- In an empty arena a request up to the end of a block is served over it. -/
theorem not_reserved_of_reset {r : Block} (hhb : b.hb = 0) (hr : r ∈ b.reachable) (hpos : 0 < r.len)
    (hstop : r.stop ≤ arenaSize) : ¬ b.Reserved := by
  intro hreserved
  have hlen : r.stop = r.off + r.len := rfl
  have harena : arenaSize = 16 * (384 * 1024) := rfl
  have hrequest : r.stop ≤ bvrtMaxMem := hstop.trans (by decide)
  have hserved : b.mallocs [r.stop] = [⟨0, (r.stop + 15) / 16 * 16⟩] := by
    rw [Bridge.mallocs, run_malloc_of_le (hhb ▸ Nat.zero_le _) hrequest, if_neg (by omega), hhb]
    rfl
  have hclear := hreserved r hr [r.stop] (List.forall_mem_singleton.mpr hrequest) _
    (hserved ▸ List.mem_singleton_self _)
  apply hclear
  constructor
  · show 0 < r.stop
    omega
  · show r.off < 0 + (r.stop + 15) / 16 * 16
    omega

end Reserved

/-! ### The exported calls -/

section Calls

variable {α : Type} {b b' : Bridge} {r : Block}

theorem mem_reachable :
    r ∈ b.reachable ↔ (∃ p ∈ b.prog, r ∈ p.blocks) ∨ (∃ s ∈ b.sess, r ∈ s.blocks) ∨
      (∃ c ∈ b.bvml, r ∈ c.blocks) ∨ ∃ c ∈ b.bvn, r ∈ c.blocks := by
  simp [Bridge.reachable]

theorem reachable_prog {p : ProgramAt} (h : r ∈ { b with prog := some p }.reachable) :
    r ∈ b.reachable ∨ r ∈ p.blocks := by
  rcases mem_reachable.mp h with ⟨_, ⟨⟩, hr⟩ | hr
  · exact .inr hr
  · exact .inl (mem_reachable.mpr (.inr hr))

theorem reachable_sess {s : SessionAt} (h : r ∈ { b with sess := some s }.reachable) :
    r ∈ b.reachable ∨ r ∈ s.blocks := by
  rcases mem_reachable.mp h with hr | ⟨_, ⟨⟩, hr⟩ | hr
  · exact .inl (mem_reachable.mpr (.inl hr))
  · exact .inr hr
  · exact .inl (mem_reachable.mpr (.inr (.inr hr)))

theorem reachable_bvml {c : Option ContextAt} (h : r ∈ { b with bvml := c }.reachable) :
    r ∈ b.reachable ∨ ∃ a ∈ c, r ∈ a.blocks := by
  rcases mem_reachable.mp h with hr | hr | hr | hr
  · exact .inl (mem_reachable.mpr (.inl hr))
  · exact .inl (mem_reachable.mpr (.inr (.inl hr)))
  · exact .inr hr
  · exact .inl (mem_reachable.mpr (.inr (.inr (.inr hr))))

theorem reachable_bvn {c : Option ContextAt} (h : r ∈ { b with bvn := c }.reachable) :
    r ∈ b.reachable ∨ ∃ a ∈ c, r ∈ a.blocks := by
  rcases mem_reachable.mp h with hr | hr | hr | hr
  · exact .inl (mem_reachable.mpr (.inl hr))
  · exact .inl (mem_reachable.mpr (.inr (.inl hr)))
  · exact .inl (mem_reachable.mpr (.inr (.inr (.inl hr))))
  · exact .inr hr

/-- `brad_wasm_create` needs a program, and none is ever dropped. -/
structure Bridge.Inv (b : Bridge) : Prop where
  sound : b.Sound
  prog_of_sess : b.prog = none → b.sess = none

theorem Bridge.Sound.assign (h : b.Sound) (hhb : b'.hb = b.hb) (hhanded : b'.handed = b.handed)
    (hnew : ∀ r ∈ b'.reachable, r ∈ b.reachable ∨ b.Below r) : b'.Sound := by
  refine ⟨hhb.trans_le h.hb_le, fun r hr => ?_, fun e he => h.safe e (hhanded ▸ he)⟩
  have hbelow : b.Below r := (hnew r hr).elim (h.below r) id
  exact ⟨hbelow.1, hhb ▸ hbelow.2⟩

theorem Bridge.Inv.start : Bridge.start.Inv := by
  refine ⟨⟨Nat.zero_le _, fun r hr => ?_, fun e he => ?_⟩, fun _ => rfl⟩
  · exact absurd hr List.not_mem_nil
  · exact absurd he List.not_mem_nil

theorem Bridge.Inv.of_grows (h : b.Inv) (hgrows : b.Grows b') : b'.Inv :=
  ⟨hgrows.sound, fun hprog => hgrows.sess.trans (h.prog_of_sess (hgrows.prog ▸ hprog))⟩

theorem Bridge.Inv.bvmlCtx (h : b.Inv) : (bvmlCtx b).Inv := by
  unfold Wasm.bvmlCtx
  cases b.bvml with
  | some _ => exact h
  | none =>
      rcases hrun : (bvlibOpen bvmlKernelSrc demoMem).run b with ⟨c, b'⟩
      obtain ⟨hgrows, hblocks⟩ := h.sound.bvlibOpen bvmlKernelSrc demoMem _ _ hrun
      have h' := h.of_grows hgrows
      refine ⟨h'.sound.assign rfl rfl fun r hr => ?_, h'.prog_of_sess⟩
      exact (reachable_bvml hr).imp_right fun ⟨a, ha, hr⟩ => hblocks a ha r hr

theorem Bridge.Inv.bvnCtx (h : b.Inv) : (bvnCtx b).Inv := by
  unfold Wasm.bvnCtx
  cases b.bvn with
  | some _ => exact h
  | none =>
      rcases hrun : (bvlibOpen bvnKernelSrc demoMem).run b with ⟨c, b'⟩
      obtain ⟨hgrows, hblocks⟩ := h.sound.bvlibOpen bvnKernelSrc demoMem _ _ hrun
      have h' := h.of_grows hgrows
      refine ⟨h'.sound.assign rfl rfl fun r hr => ?_, h'.prog_of_sess⟩
      exact (reachable_bvn hr).imp_right fun ⟨a, ha, hr⟩ => hblocks a ha r hr

/-- With no program there is no session either, and the contexts are dropped with the arena. -/
theorem Bridge.Inv.assemble (h : b.Inv) (hprog : b.prog = none) : (bradWasmAssemble b).Inv := by
  have hempty : (bradWasmAssemble b).reachable = [] := by
    simp [Bridge.reachable, bradWasmAssemble, hprog, h.prog_of_sess hprog]
  refine ⟨⟨Nat.zero_le _, fun r hr => ?_, h.sound.safe⟩, h.prog_of_sess⟩
  rw [hempty] at hr
  exact absurd hr List.not_mem_nil

theorem Bridge.Inv.after (h : b.Inv) {x : BridgeM α} {blocks : α → List Block}
    (hx : b.Allocates x blocks) :
    (b.after x).Inv := h.of_grows (hx _ _ rfl).1

theorem Bridge.Inv.compile (h : b.Inv) (source : List Byte) : (bradWasmCompile source b).Inv := by
  unfold bradWasmCompile
  split
  · exact h
  · rcases hrun : (bradlibCompile source).run b with ⟨_ | np, b'⟩
    all_goals
      obtain ⟨hgrows, hblocks⟩ := h.sound.bradlibCompile source _ _ hrun
      have h' := h.of_grows hgrows
    · exact h'
    · refine ⟨h'.sound.assign rfl rfl fun r hr => ?_, nofun⟩
      exact (reachable_prog hr).imp_right (hblocks np rfl r)

theorem Bridge.Inv.create (h : b.Inv) (memBytes : Word) : (bradWasmCreate memBytes b).Inv := by
  unfold bradWasmCreate
  split
  · exact h
  · next prog hprog =>
      have hbelow : ∀ r ∈ prog.blocks, b.Below r := fun r hr =>
        h.sound.below r (mem_reachable.mpr (.inl ⟨prog, hprog, hr⟩))
      rcases hrun : (bradlibCreate prog memBytes.toNat).run b with ⟨_ | ns, b'⟩
      all_goals
        obtain ⟨hgrows, hblocks⟩ := h.sound.bradlibCreate hbelow memBytes.toNat _ _ hrun
        have h' := h.of_grows hgrows
      · exact h'
      · refine ⟨h'.sound.assign rfl rfl fun r hr => ?_, fun hnone => ?_⟩
        · exact (reachable_sess hr).imp_right (hblocks ns rfl r)
        · have hprog' : b'.prog = some prog := hgrows.prog.trans hprog
          cases hprog'.symm.trans hnone

theorem Bridge.Inv.call (h : b.Inv) {c : Call} (hc : c = .assemble → b.prog = none) :
    (b.call c).Inv := by
  cases c with
  | assemble => exact h.assemble (hc rfl)
  | run => exact h.after (h.sound.bvrtCreate demoMem)
  | gdb => exact h.after (h.sound.bvrtCreate demoMem)
  | compile source => exact h.compile source
  | create memBytes => exact h.create memBytes
  | bvml f => exact h.bvmlCtx
  | bvn f => exact h.bvnCtx
  | libCheck => exact h.bvmlCtx.bvnCtx
  | query q => exact h

/-- A program that is there when the arena is reset stays reachable. -/
theorem Bridge.Inv.prog_of_kept (h : b.Inv) (hkept : (bradWasmAssemble b).Kept) :
    b.prog = none := by
  by_contra hprog
  obtain ⟨p, hp⟩ := Option.ne_none_iff_exists'.mp hprog
  obtain ⟨hpos, hstop⟩ :=
    h.sound.below p.self (mem_reachable.mpr (.inl ⟨p, hp, List.mem_cons_self⟩))
  have hreach : p.self ∈ (bradWasmAssemble b).reachable :=
    mem_reachable.mpr (.inl ⟨p, hp, List.mem_cons_self⟩)
  exact not_reserved_of_reset rfl hreach hpos (hstop.trans h.sound.hb_le) hkept.reserved

end Calls

/-- The globals of the bridge keep what they lead to throughout a run just when no
`brad_wasm_assemble` finds a program. -/
theorem bridge_kept_iff (calls : List Call) :
    Throughout Bridge.call (fun b c => (b.call c).Kept) Bridge.start calls ↔
      Throughout Bridge.call (fun b c => c = .assemble → b.prog = none) Bridge.start calls := by
  apply throughout_iff (B := fun _ _ => True) (throughout_of_forall fun _ _ =>
    trivial) Bridge.Inv.start
  · intro b c h _
    constructor
    · rintro hkept rfl
      exact h.prog_of_kept hkept
    · intro hc
      exact (h.call hc).sound.kept
  · intro b c h _ hkept
    apply h.call
    rintro rfl
    exact h.prog_of_kept hkept

/-- The device of `brad_wasm_run` is put over the program. -/
theorem not_forall_bridge_kept :
    ¬ ∀ calls, Throughout Bridge.call (fun b c => (b.call c).Kept) Bridge.start calls := by
  intro h
  obtain ⟨-, -, -, hrun, -⟩ := h
    [.compile (cstr ".kernel k\nEXIT\n.end\n"), .create 4096, .assemble, .run]
  have hover : ∃ e ∈ (([.compile (cstr ".kernel k\nEXIT\n.end\n"), .create 4096, .assemble, .run] :
      List Call).foldl Bridge.call Bridge.start).handed, ∃ r ∈ e.held, e.block.Overlaps r := by
    decide
  obtain ⟨e, he, r, hr, hover⟩ := hover
  exact hrun.safe e he r hr hover

end BradVector.Wasm
