import BradVector.Library.Outcome
import BradVector.Library.Bytes

/-!
# Allocated memory

Host memory as the blocks an allocator handed out. A pointer names a block and an offset in it, and
an access that does not lie inside its block is undefined. Block 0 is the null pointer's: it has no
bytes, so nothing can be read or written through it.
-/

namespace CSem

structure Ptr where
  block : Nat
  off : Nat
  deriving DecidableEq, Repr

def Ptr.null : Ptr := ⟨0, 0⟩

def Ptr.isNull (p : Ptr) : Bool := p.block = 0

instance : HAdd Ptr Nat Ptr where
  hAdd p k := ⟨p.block, p.off + k⟩

@[simp]
theorem Ptr.add_block (p : Ptr) (k : Nat) : (p + k).block = p.block := rfl

@[simp]
theorem Ptr.add_off (p : Ptr) (k : Nat) : (p + k).off = p.off + k := rfl

theorem Ptr.add_add (p : Ptr) (a b : Nat) : p + a + b = p + (a + b) := by
  simp only [HAdd.hAdd, Ptr.mk.injEq, true_and]
  exact Nat.add_assoc _ _ _

/-- An access of `len` bytes that leaves its block. -/
structure HeapFault where
  ptr : Ptr
  len : Nat
  deriving DecidableEq, Repr

@[ext]
structure Heap where
  bytes : Nat → Nat → Byte
  size : Nat → Nat
  /-- The next block the allocator hands out. -/
  next : Nat
  next_pos : 0 < next
  size_null : size 0 = 0

namespace Heap

variable {ε : Type} (h : Heap)

/-- `calloc(1, n)`, where the system grants it. -/
def calloc (n : Nat) : Ptr × Heap :=
  (⟨h.next, 0⟩, { h with
    bytes := Function.update h.bytes h.next fun _ => 0
    size := Function.update h.size h.next n
    next := h.next + 1
    next_pos := Nat.succ_pos _
    size_null := by
      rw [Function.update_of_ne (Nat.ne_of_lt h.next_pos), h.size_null] })

def read (p : Ptr) (len : Nat) : Outcome HeapFault ε (List Byte) :=
  if p.off + len ≤ h.size p.block then .ok (readBytes (h.bytes p.block) p.off len)
  else .undefined ⟨p, len⟩

/-- The memory with `bs` at `p`, whether or not the block is large enough. -/
def poke (p : Ptr) (bs : List Byte) : Heap :=
  { h with bytes := Function.update h.bytes p.block (writeBytes (h.bytes p.block) p.off bs) }

def write (p : Ptr) (bs : List Byte) : Outcome HeapFault ε Heap :=
  if p.off + bs.length ≤ h.size p.block then .ok (h.poke p bs) else .undefined ⟨p, bs.length⟩

def memmove (dst src : Ptr) (len : Nat) : Outcome HeapFault ε Heap := do
  let bs ← h.read src len
  h.write dst bs

/-- `memcpy`, undefined on stretches that overlap. -/
def memcpy (dst src : Ptr) (len : Nat) : Outcome HeapFault ε Heap :=
  if src.block = dst.block ∧ src.off < dst.off + len ∧ dst.off < src.off + len then
    .undefined ⟨dst, len⟩
  else h.memmove dst src len

def load32 (p : Ptr) : Outcome HeapFault ε (BitVec 32) := do
  let bs ← h.read p 4
  return BitVec.ofNat 32 (ofLE bs)

def store32 (p : Ptr) (w : BitVec 32) : Outcome HeapFault ε Heap := h.write p (toLE 4 w.toNat)

/-- The same blocks, with any contents. -/
def SameBlocks (h h' : Heap) : Prop := h'.size = h.size

/-! ### What an access does -/

variable {h} {p src dst : Ptr} {len : Nat} {bs : List Byte} {w : BitVec 32}

theorem sameBlocks_poke : h.SameBlocks (h.poke p bs) := rfl

theorem SameBlocks.trans {h h' h'' : Heap} (h₁ : h.SameBlocks h') (h₂ : h'.SameBlocks h'') :
    h.SameBlocks h'' :=
  Eq.trans h₂ h₁

theorem read_eq_ok (hin : p.off + len ≤ h.size p.block) :
    (h.read p len : Outcome HeapFault ε (List Byte)) =
      .ok (readBytes (h.bytes p.block) p.off len) :=
  if_pos hin

theorem write_eq_ok (hin : p.off + bs.length ≤ h.size p.block) :
    (h.write p bs : Outcome HeapFault ε Heap) = .ok (h.poke p bs) :=
  if_pos hin

theorem memmove_eq_ok (hsrc : src.off + len ≤ h.size src.block)
    (hdst : dst.off + len ≤ h.size dst.block) :
    (h.memmove dst src len : Outcome HeapFault ε Heap) =
      .ok (h.poke dst (readBytes (h.bytes src.block) src.off len)) := by
  unfold memmove
  rw [read_eq_ok hsrc]
  exact write_eq_ok (by simpa using hdst)

theorem memcpy_eq_ok (hsrc : src.off + len ≤ h.size src.block)
    (hdst : dst.off + len ≤ h.size dst.block)
    (hapart : src.off + len ≤ dst.off ∨ dst.off + len ≤ src.off) :
    (h.memcpy dst src len : Outcome HeapFault ε Heap) =
      .ok (h.poke dst (readBytes (h.bytes src.block) src.off len)) := by
  unfold memcpy
  rw [if_neg (by omega), memmove_eq_ok hsrc hdst]

theorem load32_eq_ok (hin : p.off + 4 ≤ h.size p.block) :
    (h.load32 p : Outcome HeapFault ε (BitVec 32)) = .ok (wordAt (h.bytes p.block) p.off) := by
  unfold load32
  rw [read_eq_ok hin]
  rfl

theorem store32_eq_ok (hin : p.off + 4 ≤ h.size p.block) :
    (h.store32 p w : Outcome HeapFault ε Heap) = .ok (h.poke p (toLE 4 w.toNat)) :=
  write_eq_ok (by simpa using hin)

theorem read_of_outside (hout : h.size p.block < p.off + len) :
    (h.read p len : Outcome HeapFault ε (List Byte)) = .undefined ⟨p, len⟩ :=
  if_neg (by omega)

theorem load32_of_outside (hout : h.size p.block < p.off + 4) :
    (h.load32 p : Outcome HeapFault ε (BitVec 32)) = .undefined ⟨p, 4⟩ := by
  unfold load32
  rw [read_of_outside hout]
  rfl

theorem load32_sat (h : Heap) (p : Ptr) :
    (h.load32 p : Outcome HeapFault ε (BitVec 32)).Sat (fun _ => True) (fun _ => False)
      fun _ => True := by
  unfold load32 read
  split <;> trivial

theorem write_pokes (p : Ptr) (bs : List Byte) :
    (h.write p bs : Outcome HeapFault ε Heap).Sat (fun h' => h' = h.poke p bs) (fun _ => False)
      fun _ => True := by
  unfold write
  split <;> trivial

theorem memmove_pokes (dst src : Ptr) (len : Nat) :
    (h.memmove dst src len : Outcome HeapFault ε Heap).Sat
      (fun h' => ∃ bs, bs.length = len ∧ h' = h.poke dst bs) (fun _ => False) fun _ => True := by
  unfold memmove read
  split
  · exact (write_pokes dst _).mono (fun _ h => ⟨_, readBytes_length _ _ _, h⟩) (fun _ => id)
      fun _ => id
  · trivial

theorem memcpy_pokes (dst src : Ptr) (len : Nat) :
    (h.memcpy dst src len : Outcome HeapFault ε Heap).Sat
      (fun h' => ∃ bs, bs.length = len ∧ h' = h.poke dst bs) (fun _ => False) fun _ => True := by
  unfold memcpy
  split
  · trivial
  · exact memmove_pokes dst src len

theorem write_sat (p : Ptr) (bs : List Byte) :
    (h.write p bs : Outcome HeapFault ε Heap).Sat h.SameBlocks (fun _ => False) fun _ => True :=
  (write_pokes p bs).mono (fun _ h => h ▸ sameBlocks_poke) (fun _ => id) fun _ => id

theorem memmove_sat (dst src : Ptr) (len : Nat) :
    (h.memmove dst src len : Outcome HeapFault ε Heap).Sat h.SameBlocks (fun _ => False)
      fun _ => True :=
  (memmove_pokes dst src len).mono (fun _ ⟨_, _, h⟩ => h ▸ sameBlocks_poke) (fun _ => id)
    fun _ => id

theorem memcpy_sat (dst src : Ptr) (len : Nat) :
    (h.memcpy dst src len : Outcome HeapFault ε Heap).Sat h.SameBlocks (fun _ => False)
      fun _ => True :=
  (memcpy_pokes dst src len).mono (fun _ ⟨_, _, h⟩ => h ▸ sameBlocks_poke) (fun _ => id)
    fun _ => id

theorem memcpy_never (hout : h.size dst.block < dst.off + len) :
    (h.memcpy dst src len : Outcome HeapFault ε Heap).Sat (fun _ => False) (fun _ => False)
      fun _ => True := by
  unfold memcpy
  split
  · trivial
  unfold memmove read
  split
  · rw [Outcome.bind_eq_bind, Outcome.ok_bind, write, readBytes_length, if_neg (by omega)]
    trivial
  · trivial

/-! ### The bytes after a write -/

theorem poke_bytes_of_ne {b : Nat} (hb : b ≠ p.block) : (h.poke p bs).bytes b = h.bytes b :=
  Function.update_of_ne hb _ _

theorem poke_bytes_ne {b a : Nat} (hne : (h.poke p bs).bytes b a ≠ h.bytes b a) :
    b = p.block ∧ p.off ≤ a ∧ a < p.off + bs.length := by
  by_cases hb : b = p.block
  · subst hb
    refine ⟨rfl, ?_⟩
    by_contra hout
    refine hne ?_
    simp only [poke, Function.update_self]
    exact writeBytes_of_disjoint (by omega)
  · exact absurd (congrFun (poke_bytes_of_ne hb) a) hne

end Heap

end CSem
