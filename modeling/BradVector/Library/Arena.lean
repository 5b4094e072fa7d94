import Mathlib.Data.List.Infix

/-!
# Arenas

Blocks of an arena, as an offset and a length. An allocator that only moves its break forward hands
out blocks that are stacked one behind the other, clear of everything below the break they started
at.
-/

namespace CSem

structure Block where
  off : Nat
  len : Nat
  deriving DecidableEq, Repr

def Block.stop (b : Block) : Nat := b.off + b.len

/-- The blocks have a byte in common, when they have one at all. -/
def Block.Overlaps (a b : Block) : Prop := a.off < b.stop ∧ b.off < a.stop

instance (a b : Block) : Decidable (a.Overlaps b) := inferInstanceAs (Decidable (_ ∧ _))

/-- Blocks that follow one another from a break on. -/
def Stacked : Nat → List Block → Prop
  | _, [] => True
  | brk, b :: bs => brk ≤ b.off ∧ Stacked b.stop bs

section Stacked

variable {brk : Nat} {b r : Block} {bs : List Block}

theorem not_overlaps_of_stop_le (h : r.stop ≤ b.off) : ¬ b.Overlaps r := fun hover =>
  absurd hover.1 (not_lt.mpr h)

/-- Stacked blocks are clear of what ends below the break. -/
theorem Stacked.not_overlaps (h : Stacked brk bs) (hr : r.stop ≤ brk) : ∀ b ∈ bs,
    ¬ b.Overlaps r := by
  induction bs generalizing brk with
  | nil => exact fun b hb => absurd hb List.not_mem_nil
  | cons b bs ih =>
      intro b' hb'
      have hoff : r.stop ≤ b.off := hr.trans h.1
      rcases List.mem_cons.mp hb' with rfl | hb'
      · exact not_overlaps_of_stop_le hoff
      · exact ih h.2 (hoff.trans (Nat.le_add_right _ _)) b' hb'

end Stacked

end CSem
