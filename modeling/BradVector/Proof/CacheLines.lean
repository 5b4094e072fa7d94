import BradVector.BradCacheEmu
import Mathlib.Data.Nat.Bitwise

/-!
# Sets, tags and lines of the cache

The set and the tag of an address are the low and the high bits of its line number, and a lookup
looks at the ways of that set only. A change of the table within one line leaves the other lines
alone.
-/

namespace BradVector

open CSem

/-! ### Addresses -/

theorem countHalvings_spec {fuel n : Nat} (hpos : 0 < n) (hlt : n < 2 ^ fuel) :
    2 ^ countHalvings fuel n ≤ n ∧ n < 2 ^ (countHalvings fuel n + 1) := by
  induction fuel generalizing n with
  | zero => omega
  | succ fuel ih =>
      unfold countHalvings
      by_cases h : n / 2 = 0
      · rw [if_pos h]
        omega
      · have hhalf := ih (Nat.pos_of_ne_zero h) (by omega)
        rw [if_neg h]
        omega

theorem setOf_eq_mod {c : BradCache} (hbits : c.setBits < 32) (addr : Word) :
    c.setOf addr = addr.toNat / 64 % 2 ^ c.setBits := by
  have hpow : 2 ^ c.setBits < 2 ^ 32 := Nat.pow_lt_pow_right (by decide) hbits
  have hmask : (((1 : Word) <<< c.setBits) - 1).toNat = 2 ^ c.setBits - 1 := by
    have hpos : 0 < 2 ^ c.setBits := Nat.two_pow_pos _
    have hone : (1 : Word).toNat = 1 := rfl
    rw [BitVec.toNat_sub, BitVec.toNat_shiftLeft, hone, Nat.shiftLeft_eq, Nat.one_mul,
      Nat.mod_eq_of_lt hpow]
    omega
  unfold BradCache.setOf
  rw [BitVec.toNat_and, hmask, Nat.and_two_pow_sub_one_eq_mod, BitVec.toNat_ushiftRight,
    Nat.shiftRight_eq_div_pow]
  rfl

/-- The index stays below any number of sets that fits in a word. -/
theorem setOf_lt_sets {c : BradCache} (hpos : 0 < c.sets) (hlt : c.sets < 2 ^ 32) (addr : Word) :
    c.setOf addr < c.sets := by
  have hle : 2 ^ c.setBits ≤ c.sets := (countHalvings_spec hpos hlt).1
  have hbits : c.setBits < 32 := (Nat.pow_lt_pow_iff_right (by decide)).mp (hle.trans_lt hlt)
  rw [setOf_eq_mod hbits]
  exact (Nat.mod_lt _ (Nat.two_pow_pos _)).trans_le hle

/-- What an initialisation leaves of the geometry, and every operation keeps. -/
structure BradCache.Geometry (c : BradCache) : Prop where
  sets_pos : 0 < c.sets
  sets_lt : c.sets < 2 ^ 26
  ways_pos : 0 < c.ways
  fits : c.sets * c.ways ≤ c.allocated

section Address

variable {c : BradCache} (h : c.Geometry)
include h

theorem BradCache.Geometry.setBits_le : 2 ^ c.setBits ≤ c.sets :=
  (countHalvings_spec h.sets_pos (h.sets_lt.trans (by omega))).1

theorem BradCache.Geometry.setBits_lt : c.setBits < 26 := by
  have hle := h.setBits_le
  have hlt := h.sets_lt
  exact (Nat.pow_lt_pow_iff_right (by decide)).mp (hle.trans_lt hlt)

theorem setOf_eq (addr : Word) : c.setOf addr = addr.toNat / 64 % 2 ^ c.setBits :=
  setOf_eq_mod (h.setBits_lt.trans (by decide)) addr

theorem setOf_lt (addr : Word) : c.setOf addr < c.sets :=
  setOf_lt_sets h.sets_pos (h.sets_lt.trans (by decide)) addr

omit h in
theorem tagOf_toNat (addr : Word) : (c.tagOf addr).toNat = addr.toNat / 64 / 2 ^ c.setBits := by
  unfold BradCache.tagOf
  rw [BitVec.toNat_ushiftRight, Nat.shiftRight_eq_div_pow, Nat.pow_add, ← Nat.div_div_eq_div_mul]
  rfl

/-- Set and tag together are the line number. -/
theorem sameLine_iff (a b : Word) :
    c.setOf a = c.setOf b ∧ c.tagOf a = c.tagOf b ↔ a.toNat / 64 = b.toNat / 64 := by
  rw [setOf_eq h, setOf_eq h, ← BitVec.toNat_inj, tagOf_toNat, tagOf_toNat]
  constructor
  · rintro ⟨hset, htag⟩
    rw [← Nat.div_add_mod (a.toNat / 64) (2 ^ c.setBits), hset, htag, Nat.div_add_mod]
  · intro hline
    rw [hline]
    exact ⟨rfl, rfl⟩

end Address

/-! ### Lookup -/

section Search

variable {c : BradCache} {set : Nat} {tag : Word}

/-- What the loop over the ways finds. -/
structure SearchSpec (c : BradCache) (set : Nat) (tag : Word) (is : List Nat) (lruWay : Nat)
    (search : Option Nat × Nat × List Nat) : Prop where
  hit : ∀ i, search.1 = some i →
    i ∈ is ∧ c.valid (set * c.ways + i) ≠ 0 ∧ c.tag (set * c.ways + i) = tag
  miss : search.1 = none → ∀ i ∈ is, c.valid (set * c.ways + i) ≠ 0 → c.tag (set * c.ways + i) ≠ tag
  victim : search.2.1 ∈ lruWay :: is
  touched : search.2.2 ⊆ is

theorem searchWays_spec (c : BradCache) (set : Nat) (tag : Word) (is : List Nat) (lruWay : Nat)
    (lruVal : Byte) : SearchSpec c set tag is lruWay (searchWays c set tag is lruWay lruVal) := by
  induction is generalizing lruWay lruVal with
  | nil => exact ⟨nofun, nofun, List.mem_singleton_self _, List.Subset.refl _⟩
  | cons i is ih =>
      unfold searchWays
      dsimp only
      by_cases hhit : c.valid (set * c.ways + i) ≠ 0 ∧ c.tag (set * c.ways + i) = tag
      · rw [if_pos hhit]
        refine ⟨?_, nofun, List.mem_cons_self, by simp⟩
        intro j hj
        obtain rfl := Option.some.inj hj
        exact ⟨List.mem_cons_self, hhit⟩
      · rw [if_neg hhit]
        have hrest : ∃ way, way ∈ lruWay :: [i] ∧ SearchSpec c set tag is way
            (if lruVal < c.lru (set * c.ways + i) then
              searchWays c set tag is i (c.lru (set * c.ways + i))
            else searchWays c set tag is lruWay lruVal) := by
          split
          · exact ⟨i, by simp, ih i _⟩
          · exact ⟨lruWay, by simp, ih lruWay _⟩
        generalize (if lruVal < c.lru (set * c.ways + i) then
          searchWays c set tag is i (c.lru (set * c.ways + i))
          else searchWays c set tag is lruWay lruVal) = rest at hrest
        obtain ⟨way, hway, hspec⟩ := hrest
        refine ⟨?_, ?_, ?_, ?_⟩
        · intro j hj
          obtain ⟨hmem, hvalid⟩ := hspec.hit j hj
          exact ⟨List.mem_cons_of_mem _ hmem, hvalid⟩
        · intro hnone j hj hvalid htag
          obtain rfl | hj := List.mem_cons.mp hj
          · exact hhit ⟨hvalid, htag⟩
          · exact hspec.miss hnone j hj hvalid htag
        · have hvictim := hspec.victim
          simp only [List.mem_cons, List.not_mem_nil, or_false] at hway hvictim ⊢
          rcases hvictim with hvictim | hvictim
          · rw [hvictim]
            exact hway.imp_right .inl
          · exact .inr (.inr hvictim)
        · exact List.cons_subset_cons _ hspec.touched

end Search

/-- A lookup hits a line or fills one of the set. -/
inductive Lookup (c : BradCache) (addr : Word) (forWrite : Bool) : Found → Prop
  | hit (way : Nat) (touched : List (Nat × Nat)) (hway : way < c.ways)
      (hvalid : c.valid (c.setOf addr * c.ways + way) ≠ 0)
      (htag : c.tag (c.setOf addr * c.ways + way) = c.tagOf addr)
      (htouched : ∀ place ∈ touched, place.1 = c.setOf addr ∧ place.2 < c.ways) :
      Lookup c addr forWrite
        ⟨{ c.setByte (BradCache.lineBytes * (c.setOf addr * c.ways + way) + 2) 0 with
            hits := c.hits + 1 }, some (c.setOf addr * c.ways + way), touched⟩
  | miss (way : Nat) (touched : List (Nat × Nat)) (hway : way < c.ways)
      (hfree : ∀ i < c.ways, c.valid (c.setOf addr * c.ways + i) ≠ 0 →
        c.tag (c.setOf addr * c.ways + i) ≠ c.tagOf addr)
      (htouched : ∀ place ∈ touched, place.1 = c.setOf addr ∧ place.2 < c.ways) :
      Lookup c addr forWrite
        ⟨{ c.fill (c.setOf addr * c.ways + way) (c.tagOf addr) forWrite with misses := c.misses +
          1 }, some (c.setOf addr * c.ways + way), touched⟩

theorem findLine_lookup {c : BradCache} (hc : c.Geometry) (addr : Word) (forWrite : Bool) :
    Lookup c addr forWrite (findLine c addr forWrite) := by
  have hspec := searchWays_spec c (c.setOf addr) (c.tagOf addr) (List.range c.ways) 0
    (c.lru (c.setOf addr * c.ways))
  unfold findLine
  dsimp only
  rw [if_neg (Nat.not_le.mpr (setOf_lt hc addr))]
  generalize searchWays c (c.setOf addr) (c.tagOf addr) (List.range c.ways) 0
    (c.lru (c.setOf addr * c.ways)) = search at hspec
  have htouched : ∀ place ∈ (c.setOf addr, 0) :: search.2.2.map fun i => (c.setOf addr, i),
      place.1 = c.setOf addr ∧ place.2 < c.ways := by
    intro place hplace
    obtain rfl | hplace := List.mem_cons.mp hplace
    · exact ⟨rfl, hc.ways_pos⟩
    · obtain ⟨i, hi, rfl⟩ := List.mem_map.mp hplace
      exact ⟨rfl, List.mem_range.mp (hspec.touched hi)⟩
  cases hsearch : search.1 with
  | some i =>
      obtain ⟨hi, hvalid, htag⟩ := hspec.hit i hsearch
      exact .hit i _ (List.mem_range.mp hi) hvalid htag htouched
  | none =>
      refine .miss search.2.1 _ ?_ ?_ htouched
      · obtain hzero | hmem := List.mem_cons.mp hspec.victim
        · rw [hzero]
          exact hc.ways_pos
        · exact List.mem_range.mp hmem
      · intro i hi
        exact hspec.miss hsearch i (List.mem_range.mpr hi)

/-! ### Changes of the table -/

/-- The bytes of a line are the same in both tables. -/
def SameLine (c c' : BradCache) (line : Nat) : Prop :=
  ∀ o < BradCache.lineBytes,
    c'.lines (BradCache.lineBytes * line + o) = c.lines (BradCache.lineBytes * line + o)

section SameLine

variable {c c' : BradCache} {line : Nat} (h : SameLine c c' line)
include h

theorem SameLine.valid : c'.valid line = c.valid line := h 0 (by decide)

theorem SameLine.lru : c'.lru line = c.lru line := h 2 (by decide)

theorem SameLine.tag : c'.tag line = c.tag line := by
  apply wordAt_congr
  intro i hi
  rw [Nat.add_assoc]
  exact h (4 + i) (by unfold BradCache.lineBytes bradCacheLineSize bradCacheLineBits; omega)

end SameLine

/-- The bytes of another line lie elsewhere. -/
theorem lineBytes_disjoint {i j o o' : Nat} (hne : i ≠ j) (ho : o < BradCache.lineBytes)
    (ho' : o' < BradCache.lineBytes) :
    BradCache.lineBytes * i + o ≠ BradCache.lineBytes * j + o' := by
  unfold BradCache.lineBytes bradCacheLineSize bradCacheLineBits at *
  omega

section Changes

variable (c : BradCache) {line other : Nat}

theorem sameLine_setByte {o : Nat} (ho : o < BradCache.lineBytes) (v : Byte) (hne : other ≠ line) :
    SameLine c (c.setByte (BradCache.lineBytes * line + o) v) other := by
  intro o' ho'
  exact Function.update_of_ne (lineBytes_disjoint hne ho' ho) _ _

/-- A stretch of bytes within one line leaves the others alone. -/
theorem sameLine_writeBytes {o : Nat} {bs : List Byte} (ho : o + bs.length ≤ BradCache.lineBytes)
    (hne : other ≠ line) :
    SameLine c
      { c with lines := writeBytes c.lines (BradCache.lineBytes * line + o) bs } other := by
  intro o' ho'
  apply writeBytes_of_disjoint
  unfold BradCache.lineBytes bradCacheLineSize bradCacheLineBits at *
  omega

theorem fill_length (tag : Word) (forWrite : Bool) :
    ([1, if forWrite then 1 else 0, 0, 0] ++ toLE 4 tag.toNat ++
      List.replicate bradCacheLineSize (0 : Byte)).length = BradCache.lineBytes := by
  simp only [List.length_append, List.length_cons, List.length_nil, toLE_length,
    List.length_replicate]
  rfl

theorem fill_valid (tag : Word) (forWrite : Bool) : (c.fill line tag forWrite).valid line = 1 :=
  writeBytes_add (i := 0) (by simp)

theorem fill_tag (tag : Word) (forWrite : Bool) : (c.fill line tag forWrite).tag line = tag :=
  wordAt_writeBytes_append c.lines _ [1, if forWrite then 1 else 0, 0, 0] _ tag

theorem fill_lru (tag : Word) (forWrite : Bool) : (c.fill line tag forWrite).lru line = 0 :=
  writeBytes_add (i := 2) (by simp)

theorem fill_data (tag : Word) (forWrite : Bool) {i : Nat} (hi : i < bradCacheLineSize) :
    (c.fill line tag forWrite).lines (BradCache.dataAt line + i) = 0 := by
  have hheader : ([1, if forWrite then 1 else 0, 0, 0] ++ toLE 4 tag.toNat : List Byte).length =
      8 := by
    rw [List.length_append, toLE_length]
    rfl
  have hlt : 8 + i < ([1, if forWrite then 1 else 0, 0, 0] ++ toLE 4 tag.toNat ++
      List.replicate bradCacheLineSize 0 : List Byte).length := by
    rw [List.length_append, hheader, List.length_replicate]
    omega
  have hbyte : (c.fill line tag forWrite).lines (BradCache.lineBytes * line + (8 + i)) = _ :=
    writeBytes_add hlt
  rw [List.getElem_append_right (by omega), List.getElem_replicate, ← Nat.add_assoc] at hbyte
  exact hbyte

theorem sameLine_fill (tag : Word) (forWrite : Bool) (hne : other ≠ line) :
    SameLine c (c.fill line tag forWrite) other := by
  apply sameLine_writeBytes c (o := 0) ?_ hne
  rw [fill_length, Nat.zero_add]

end Changes

end BradVector
