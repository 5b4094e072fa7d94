import BradVector.Proof.BridgeRuns

/-!
# Calls of the allocator

Between two resets the break of the arena moves forward over the blocks handed out, as long as no
size wraps in `size_t`. A size wraps when it is rounded up, when it is added to the break, or when
`calloc` multiplies.
-/

namespace BradVector.Wasm

open CSem

/-- Where the arena is put, at a multiple of 16. -/
structure ArenaBase where
  addr : Nat
  aligned : 16 ∣ addr

inductive Request where
  | malloc (n : Word)
  | calloc (n s : Word)
  deriving DecidableEq, Repr

namespace Request

/-- The number of bytes asked for. -/
def size : Request → Nat
  | malloc n => n.toNat
  | calloc n s => n.toNat * s.toNat

/-- The number of bytes that `malloc` is called with. -/
def passed (q : Request) : Nat := sizeT q.size

def call : Request → BridgeM Block
  | malloc n => Wasm.malloc n.toNat
  | calloc n s => Wasm.calloc n.toNat s.toNat

theorem call_eq (q : Request) : q.call = Wasm.malloc q.passed := by
  cases q with
  | malloc n =>
      have hsize : sizeT n.toNat = n.toNat := Nat.mod_eq_of_lt n.isLt
      rw [call, passed, size, hsize]
  | calloc n s => rfl

theorem passed_lt (q : Request) : q.passed < 2 ^ 32 := Nat.mod_lt _ (by decide)

theorem passed_le (q : Request) : q.passed ≤ q.size := Nat.mod_le _ _

theorem passed_eq {q : Request} (h : q.size < 2 ^ 32) : q.passed = q.size := Nat.mod_eq_of_lt h

end Request

/-- The allocator, with the blocks it has handed out since the reset. -/
structure ArenaRun where
  bridge : Bridge
  blocks : List Block

namespace ArenaRun

def afterReset (b : Bridge) : ArenaRun := ⟨wasmResetArena b, []⟩

def next (s : ArenaRun) (q : Request) : ArenaRun :=
  match q.call.run s.bridge with
  | (some r, b) => ⟨b, s.blocks ++ [r]⟩
  | (none, b) => ⟨b, s.blocks⟩

/-- The call returns a null pointer, or a block that is large enough, aligned, in the arena and
clear of the earlier ones. -/
def Served (base : ArenaBase) (s : ArenaRun) (q : Request) : Prop :=
  ∀ r ∈ (q.call.run s.bridge).1,
    q.size ≤ r.len ∧ 16 ∣ base.addr + r.off ∧ r.stop ≤ arenaSize ∧ ∀ e ∈ s.blocks, ¬ e.Overlaps r

/-- Neither the rounded size nor the end of the block wraps, and if the product of `calloc` does,
what is left of it does not fit in the arena. -/
def Unwrapped (s : ArenaRun) (q : Request) : Prop :=
  s.bridge.hb + (q.passed + 15) / 16 * 16 < 2 ^ 32 ∧
    (q.size < 2 ^ 32 ∨ arenaSize < s.bridge.hb + (q.passed + 15) / 16 * 16)

/-- The blocks lie below the break, which is aligned and in the arena. -/
structure Inv (s : ArenaRun) : Prop where
  hb_le : s.bridge.hb ≤ arenaSize
  aligned : 16 ∣ s.bridge.hb
  below : ∀ e ∈ s.blocks, e.stop ≤ s.bridge.hb

theorem inv_afterReset (b : Bridge) : (afterReset b).Inv := ⟨Nat.zero_le _, Nat.dvd_zero 16, nofun⟩

section

variable {s : ArenaRun} {q : Request} {base : ArenaBase}

/-- The call, when no sum wraps. -/
theorem run_call (h : s.bridge.hb + (q.passed + 15) / 16 * 16 < 2 ^ 32) :
    q.call.run s.bridge =
      if arenaSize < s.bridge.hb + (q.passed + 15) / 16 * 16 then (none, s.bridge)
      else
        (some ⟨s.bridge.hb, (q.passed + 15) / 16 * 16⟩,
          { s.bridge with
            hb := s.bridge.hb + (q.passed + 15) / 16 * 16
            handed := s.bridge.handed ++
              [⟨⟨s.bridge.hb, (q.passed + 15) / 16 * 16⟩, s.bridge.reachable⟩] }) := by
  have hround : sizeT (q.passed + 15) = q.passed + 15 := by
    unfold sizeT
    omega
  have hsum : sizeT (s.bridge.hb + (q.passed + 15) / 16 * 16) =
      s.bridge.hb + (q.passed + 15) / 16 * 16 := Nat.mod_eq_of_lt h
  rw [Request.call_eq, run_malloc, hround, hsum]

/-- What the call returns, when a sum wraps: a block without bytes, or one that goes past the
arena. -/
theorem run_call_wrapped (hs : s.Inv) (h : 2 ^ 32 ≤ s.bridge.hb + (q.passed + 15) / 16 * 16) :
    ∃ r, (q.call.run s.bridge).1 = some r ∧ (r.len = 0 ∧ 0 < q.passed ∨ arenaSize < r.stop) := by
  have hhb := hs.hb_le
  have hpassed := q.passed_lt
  have harena : arenaSize = 6291456 := rfl
  have hserved : ¬ arenaSize < sizeT (s.bridge.hb + sizeT (q.passed + 15) / 16 * 16) := by
    unfold sizeT
    omega
  refine ⟨⟨s.bridge.hb, sizeT (q.passed + 15) / 16 * 16⟩, ?_, ?_⟩
  · rw [Request.call_eq, run_malloc, if_neg hserved]
  · change sizeT (q.passed + 15) / 16 * 16 = 0 ∧ 0 < q.passed ∨
      arenaSize < s.bridge.hb + sizeT (q.passed + 15) / 16 * 16
    unfold sizeT
    omega

/-- **One call.** -/
theorem served_iff (hs : s.Inv) : s.Served base q ↔ s.Unwrapped q := by
  constructor
  · intro hserved
    have hsum : s.bridge.hb + (q.passed + 15) / 16 * 16 < 2 ^ 32 := by
      by_contra hwrap
      obtain ⟨r, hr, hbad⟩ := run_call_wrapped hs (not_lt.mp hwrap)
      obtain ⟨hsize, -, hstop, -⟩ := hserved r (hr ▸ rfl)
      have hpassed := q.passed_le
      omega
    refine ⟨hsum, ?_⟩
    by_contra hproduct
    obtain ⟨hsize, hroom⟩ := not_or.mp hproduct
    have hr := run_call hsum
    rw [if_neg hroom] at hr
    obtain ⟨hlen, -⟩ := hserved _ (congrArg Prod.fst hr)
    change q.size ≤ (q.passed + 15) / 16 * 16 at hlen
    have harena : arenaSize = 6291456 := rfl
    omega
  · rintro ⟨hsum, hproduct⟩ r hr
    rw [run_call hsum] at hr
    by_cases hroom : arenaSize < s.bridge.hb + (q.passed + 15) / 16 * 16
    · rw [if_pos hroom] at hr
      cases hr
    rw [if_neg hroom] at hr
    cases hr
    have hsize : q.passed = q.size := Request.passed_eq (hproduct.resolve_right hroom)
    refine ⟨?_, Nat.dvd_add base.aligned hs.aligned, not_lt.mp hroom, fun e he => ?_⟩
    · change q.size ≤ (q.passed + 15) / 16 * 16
      omega
    · intro hover
      exact not_overlaps_of_stop_le (hs.below e he) hover.symm

/-- **A call that is served** keeps the blocks below the break. -/
theorem Inv.next (hs : s.Inv) (h : s.Unwrapped q) : (s.next q).Inv := by
  unfold ArenaRun.next
  rw [run_call h.1]
  by_cases hroom : arenaSize < s.bridge.hb + (q.passed + 15) / 16 * 16
  · rw [if_pos hroom]
    exact hs
  · rw [if_neg hroom]
    refine ⟨not_lt.mp hroom, ?_, fun e he => ?_⟩
    · exact Nat.dvd_add hs.aligned (Nat.dvd_mul_left 16 _)
    · rcases List.mem_append.mp he with hold | hnew
      · exact (hs.below e hold).trans (Nat.le_add_right _ _)
      · rw [List.mem_singleton.mp hnew]
        exact Nat.le_refl _

end

end ArenaRun

/-- **The calls between two resets** are all served just when no size wraps, except for a product of
which too much is left to fit. -/
theorem arena_calls_served_iff (base : ArenaBase) (b : Bridge) (qs : List Request) :
    Throughout ArenaRun.next (ArenaRun.Served base) (.afterReset b) qs ↔
      Throughout ArenaRun.next ArenaRun.Unwrapped (.afterReset b) qs := by
  apply throughout_iff (B := fun _ _ => True) (throughout_of_forall fun _ _ => trivial)
    (ArenaRun.inv_afterReset b)
  · intro s q hs _
    exact ArenaRun.served_iff hs
  · intro s q hs _ hserved
    exact hs.next ((ArenaRun.served_iff hs).mp hserved)

/-- The largest size is rounded up to zero, and the block has no bytes. -/
theorem largest_malloc_not_served :
    ¬ Throughout ArenaRun.next (ArenaRun.Served ⟨1024, by decide⟩) (.afterReset .start)
      [.malloc 0xFFFFFFFF] := by
  rintro ⟨hserved, -⟩
  obtain ⟨hsize, -⟩ := hserved ⟨0, 0⟩ rfl
  revert hsize
  decide

end BradVector.Wasm
