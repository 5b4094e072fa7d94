import BradVector.Proof.CacheLines

/-!
# The data of an L1 cache

No lookup ever ages a line, so a miss always replaces the first way of its set: the cache maps each
line directly to one place. A line that is not there reads as zeros, whatever was written to it
before, and the data of an access always lie at the start of the line.
-/

namespace BradVector

open CSem

/-- A data cache of a core, in use. -/
structure BradCache.Ready (c : BradCache) : Prop where
  sets : c.sets = 64
  ways : c.ways = 8
  allocated : c.allocated = 512
  young : ∀ line, c.lru line = 0
  first : ∀ set, ∀ i < 8, 0 < i → c.valid (set * 8 + i) = 0

/-- The place of the line of an address. -/
def BradCache.home (c : BradCache) (addr : Word) : Nat := c.setOf addr * c.ways

/-- The line of the address is in the cache. -/
def BradCache.Holds (c : BradCache) (addr : Word) : Prop :=
  c.valid (c.home addr) ≠ 0 ∧ c.tag (c.home addr) = c.tagOf addr

instance (c : BradCache) (addr : Word) : Decidable (c.Holds addr) := by
  unfold BradCache.Holds
  infer_instance

/-- Byte `i` of what a read at `addr` would copy out. -/
def BradCache.seen (c : BradCache) (addr : Word) (i : Nat) : Byte :=
  if c.Holds addr then c.lines (BradCache.dataAt (c.home addr) + i) else 0

section Ready

variable {c : BradCache} (h : c.Ready)
include h

theorem BradCache.Ready.geometry : c.Geometry where
  sets_pos := by rw [h.sets]; decide
  sets_lt := by rw [h.sets]; decide
  ways_pos := by rw [h.ways]; decide
  fits := by rw [h.sets, h.ways, h.allocated]

theorem BradCache.Ready.setBits : c.setBits = 6 := by
  unfold BradCache.setBits
  rw [h.sets]
  rfl

/-- The set of an address is the low part of its line number. -/
theorem BradCache.Ready.home_eq (addr : Word) : c.home addr = addr.toNat / 64 % 64 * 8 := by
  unfold BradCache.home
  rw [setOf_eq h.geometry, h.setBits, h.ways]
  rfl

/-- Of the ways of a set only the first is ever looked at in earnest. -/
theorem BradCache.Ready.search (set : Nat) (tag : Word) (lruVal : Byte) :
    (searchWays c set tag (List.range c.ways) 0 lruVal).1 =
        (if c.valid (set * c.ways) ≠ 0 ∧ c.tag (set * c.ways) = tag then some 0 else none) ∧
      (searchWays c set tag (List.range c.ways) 0 lruVal).2.1 = 0 := by
  have hrest : ∀ is : List Nat, (∀ i ∈ is, i < 8 ∧ 0 < i) → ∀ way lruVal,
      (searchWays c set tag is way lruVal).1 = none ∧
        (searchWays c set tag is way lruVal).2.1 = way := by
    intro is
    induction is with
    | nil => exact fun _ _ _ => ⟨rfl, rfl⟩
    | cons i is ih =>
        intro his way lruVal
        obtain ⟨hlt, hpos⟩ := his i List.mem_cons_self
        have hinvalid : c.valid (set * c.ways + i) = 0 := by
          rw [h.ways]
          exact h.first set i hlt hpos
        have hold : ¬ lruVal < c.lru (set * c.ways + i) := by
          rw [h.young]
          exact BitVec.not_lt_zero
        unfold searchWays
        dsimp only
        rw [if_neg (fun hhit => hhit.1 hinvalid), if_neg hold]
        exact ih (fun j hj => his j (List.mem_cons_of_mem i hj)) way lruVal
  have hrange : List.range c.ways = 0 :: [1, 2, 3, 4, 5, 6, 7] := by
    rw [h.ways]
    rfl
  have hold : ¬ lruVal < c.lru (set * c.ways + 0) := by
    rw [h.young]
    exact BitVec.not_lt_zero
  rw [hrange]
  unfold searchWays
  dsimp only
  rw [Nat.add_zero] at hold ⊢
  by_cases hhit : c.valid (set * c.ways) ≠ 0 ∧ c.tag (set * c.ways) = tag
  · rw [if_pos hhit, if_pos hhit]
    exact ⟨rfl, rfl⟩
  · rw [if_neg hhit, if_neg hhit, if_neg hold]
    exact hrest _ (by decide) 0 lruVal

/-- A lookup of a line that is there changes nothing but the counters. -/
theorem BradCache.Ready.findLine_of_holds {addr : Word} (hholds : c.Holds addr) (forWrite : Bool) :
    ∃ touched, findLine c addr forWrite =
      ⟨{ c with hits := c.hits + 1 }, some (c.home addr), touched⟩ := by
  have hsearch := h.search (c.setOf addr) (c.tagOf addr) (c.lru (c.setOf addr * c.ways))
  have hsame : c.setByte (BradCache.lineBytes * (c.setOf addr * c.ways + 0) + 2) 0 = c := by
    unfold BradCache.setByte
    have hyoung : c.lines (BradCache.lineBytes * (c.setOf addr * c.ways + 0) + 2) = 0 := h.young _
    rw [Function.update_eq_self_iff.mpr hyoung.symm]
  have hhit : c.valid (c.setOf addr * c.ways) ≠ 0 ∧ c.tag (c.setOf addr * c.ways) = c.tagOf addr :=
    hholds
  unfold findLine
  dsimp only
  rw [if_neg (Nat.not_le.mpr (setOf_lt h.geometry addr)), hsearch.1, if_pos hhit]
  dsimp only
  rw [hsame]
  exact ⟨_, rfl⟩

/-- A lookup of one that is not clears the first way of the set for it. -/
theorem BradCache.Ready.findLine_of_not_holds {addr : Word} (hholds : ¬ c.Holds addr)
    (forWrite : Bool) :
    ∃ touched, findLine c addr forWrite =
      ⟨{ c.fill (c.home addr) (c.tagOf addr) forWrite with misses := c.misses + 1 },
        some (c.home addr), touched⟩ := by
  have hsearch := h.search (c.setOf addr) (c.tagOf addr) (c.lru (c.setOf addr * c.ways))
  have hmiss : ¬ (c.valid (c.setOf addr * c.ways) ≠ 0 ∧
      c.tag (c.setOf addr * c.ways) = c.tagOf addr) := hholds
  unfold findLine
  dsimp only
  rw [if_neg (Nat.not_le.mpr (setOf_lt h.geometry addr)), hsearch.1, hsearch.2, if_neg hmiss]
  exact ⟨_, rfl⟩

end Ready

/-- The address is in the same line. -/
def SameCacheLine (a b : Word) : Prop := a.toNat / 64 = b.toNat / 64

/-- The lines of the two addresses have the same place in a cache of 64 sets. -/
def SameSet (a b : Word) : Prop := a.toNat / 64 % 64 = b.toNat / 64 % 64

instance (a b : Word) : Decidable (SameCacheLine a b) := by
  unfold SameCacheLine
  infer_instance

instance (a b : Word) : Decidable (SameSet a b) := by
  unfold SameSet
  infer_instance

/-- What is seen after an access to `addr` that leaves `data` in its line. -/
def seenAfter (c : BradCache) (addr : Word) (data : Nat → Byte) (other : Word) (i : Nat) : Byte :=
  if SameCacheLine other addr then data i else if SameSet other addr then 0 else c.seen other i

section Seen

variable {c c' : BradCache} {addr other : Word} {i : Nat}

theorem home_eq_iff (h : c.Ready) : c.home other = c.home addr ↔ SameSet other addr := by
  rw [h.home_eq, h.home_eq, Nat.mul_left_inj (by decide)]
  rfl

theorem tagOf_eq_iff (h : c.Ready) (hset : SameSet other addr) :
    c.tagOf other = c.tagOf addr ↔ SameCacheLine other addr := by
  have hline := sameLine_iff h.geometry other addr
  have hsets : c.setOf other = c.setOf addr := by
    rw [setOf_eq h.geometry, setOf_eq h.geometry, h.setBits]
    exact hset
  rw [← show _ ↔ SameCacheLine other addr from hline]
  exact ⟨fun htag => ⟨hsets, htag⟩, And.right⟩

theorem SameCacheLine.sameSet (h : SameCacheLine other addr) : SameSet other addr :=
  congrArg (· % 64) h

theorem seen_congr (h : c.Ready) (hline : SameCacheLine other addr) (i : Nat) :
    c.seen other i = c.seen addr i := by
  have hhome := (home_eq_iff h).mpr hline.sameSet
  have htag := (tagOf_eq_iff h hline.sameSet).mpr hline
  have hholds : c.Holds other ↔ c.Holds addr := by
    unfold BradCache.Holds
    rw [hhome, htag]
  unfold BradCache.seen
  rw [hhome]
  by_cases hin : c.Holds addr
  · rw [if_pos (hholds.mpr hin), if_pos hin]
  · rw [if_neg (fun h' => hin (hholds.mp h')), if_neg hin]

/-- The geometry and all lines but that of `addr` are as before, and that line holds `addr` with
`data`. -/
structure Serves (c c' : BradCache) (addr : Word) (data : Nat → Byte) : Prop where
  sets : c'.sets = c.sets
  ways : c'.ways = c.ways
  allocated : c'.allocated = c.allocated
  others : ∀ line, line ≠ c.home addr → SameLine c c' line
  young : c'.lru (c.home addr) = 0
  valid : c'.valid (c.home addr) ≠ 0
  tag : c'.tag (c.home addr) = c.tagOf addr
  data_eq : ∀ i < 64, c'.lines (BradCache.dataAt (c.home addr) + i) = data i

theorem Serves.ready {data : Nat → Byte} (hs : Serves c c' addr data) (h : c.Ready) : c'.Ready where
  sets := hs.sets.trans h.sets
  ways := hs.ways.trans h.ways
  allocated := hs.allocated.trans h.allocated
  young := by
    intro line
    by_cases hne : line = c.home addr
    · rw [hne]
      exact hs.young
    · rw [(hs.others line hne).lru]
      exact h.young line
  first := by
    intro set way hlt hpos
    have hne : set * 8 + way ≠ c.home addr := by
      rw [h.home_eq]
      omega
    rw [(hs.others _ hne).valid]
    exact h.first set way hlt hpos

/-- What is seen after an access: its line with the data, no other line of the set, and the rest as
before. -/
theorem Serves.seen {data : Nat → Byte} (hs : Serves c c' addr data) (h : c.Ready) (other : Word)
    {i : Nat} (hi : i < 64) : c'.seen other i = seenAfter c addr data other i := by
  have hready := hs.ready h
  have hhome : c'.home other = c.home other := by rw [hready.home_eq, h.home_eq]
  have htagOf : c'.tagOf other = c.tagOf other := by
    unfold BradCache.tagOf
    rw [hready.setBits, h.setBits]
  unfold seenAfter
  by_cases hset : SameSet other addr
  · have hhere : c.home other = c.home addr := (home_eq_iff h).mpr hset
    by_cases hline : SameCacheLine other addr
    · have hholds : c'.Holds other := by
        unfold BradCache.Holds
        rw [hhome, hhere, htagOf, (tagOf_eq_iff h hset).mpr hline]
        exact ⟨hs.valid, hs.tag⟩
      unfold BradCache.seen
      rw [if_pos hholds, if_pos hline, hhome, hhere]
      exact hs.data_eq i hi
    · have hholds : ¬ c'.Holds other := by
        unfold BradCache.Holds
        rw [hhome, hhere, htagOf, hs.tag]
        rintro ⟨_, htag⟩
        exact hline ((tagOf_eq_iff h hset).mp htag.symm)
      unfold BradCache.seen
      rw [if_neg hholds, if_neg hline, if_pos hset]
  · have hsame : SameLine c c' (c.home other) :=
      hs.others _ fun heq => hset ((home_eq_iff h).mp heq)
    have hholds : c'.Holds other ↔ c.Holds other := by
      unfold BradCache.Holds
      rw [hhome, htagOf, hsame.valid, hsame.tag]
    have hdata : c'.lines (BradCache.dataAt (c.home other) + i) =
        c.lines (BradCache.dataAt (c.home other) + i) := by
      have hbyte := hsame (8 + i) (by
        unfold BradCache.lineBytes bradCacheLineSize bradCacheLineBits
        omega)
      rwa [← Nat.add_assoc] at hbyte
    rw [if_neg fun hline => hset hline.sameSet, if_neg hset]
    unfold BradCache.seen
    rw [hhome, hdata]
    by_cases hin : c.Holds other
    · rw [if_pos (hholds.mpr hin), if_pos hin]
    · rw [if_neg fun h' => hin (hholds.mp h'), if_neg hin]

/-- A lookup serves the line with what was seen of it. -/
theorem findLine_serves (h : c.Ready) (addr : Word) (forWrite : Bool) :
    (findLine c addr forWrite).line = some (c.home addr) ∧
      Serves c (findLine c addr forWrite).cache addr (c.seen addr) := by
  by_cases hholds : c.Holds addr
  · obtain ⟨touched, hfound⟩ := h.findLine_of_holds hholds forWrite
    rw [hfound]
    refine ⟨rfl, rfl, rfl, rfl, fun _ _ _ _ => rfl, h.young _, hholds.1, hholds.2, ?_⟩
    intro i _
    unfold BradCache.seen
    rw [if_pos hholds]
  · obtain ⟨touched, hfound⟩ := h.findLine_of_not_holds hholds forWrite
    rw [hfound]
    refine ⟨rfl, rfl, rfl, rfl, ?_, ?_, ?_, ?_, ?_⟩
    · exact fun line hne => sameLine_fill c _ forWrite hne
    · exact fill_lru c _ forWrite
    · intro hzero
      exact absurd ((fill_valid c _ forWrite).symm.trans hzero) (by decide)
    · exact fill_tag c _ forWrite
    · intro i hi
      unfold BradCache.seen
      rw [if_neg hholds]
      exact fill_data c _ forWrite hi

theorem read_ready (h : c.Ready) (addr : Word) {size : Nat} (hsize : size ≤ 64) :
    (bradCacheRead c addr size).1 = sizeToInt size ∧
      (bradCacheRead c addr size).2.2 = (List.range size).map (c.seen addr) ∧
      Serves c (bradCacheRead c addr size).2.1 addr (c.seen addr) := by
  obtain ⟨hline, hserves⟩ := findLine_serves h addr false
  unfold bradCacheRead
  dsimp only
  rw [hline]
  refine ⟨rfl, ?_, hserves⟩
  apply List.map_congr_left
  intro i hi
  exact hserves.data_eq i ((List.mem_range.mp hi).trans_le hsize)

/-- A write puts its bytes at the start of the line, whatever the offset of its address. -/
theorem write_ready (h : c.Ready) (addr : Word) {buf : List Byte} (hbuf : buf.length ≤ 64) :
    Serves c (bradCacheWrite c addr buf).2 addr
      (fun i => if i < buf.length then buf.getD i 0 else c.seen addr i) := by
  obtain ⟨hline, hserves⟩ := findLine_serves h addr true
  unfold bradCacheWrite
  dsimp only
  rw [hline]
  generalize (findLine c addr true).cache = d at hserves
  obtain ⟨hsets, hways, hallocated, hothers, hyoung, hvalid, htag, hdata⟩ := hserves
  have hheader : ∀ o < 8, o ≠ 1 →
      writeBytes (d.setByte (BradCache.lineBytes * c.home addr + 1) 1).lines
        (BradCache.dataAt (c.home addr)) buf (BradCache.lineBytes * c.home addr + o) =
          d.lines (BradCache.lineBytes * c.home addr + o) := by
    intro o ho hne
    rw [writeBytes_of_disjoint (.inl (by unfold BradCache.dataAt; omega))]
    exact Function.update_of_ne (by omega) _ _
  refine ⟨hsets, hways, hallocated, ?_, ?_, ?_, ?_, ?_⟩
  · intro line hne o ho
    rw [← hothers line hne o ho]
    have hdirty := sameLine_setByte d (o := 1) (by decide) 1 hne o ho
    rw [← hdirty]
    refine writeBytes_of_disjoint ?_
    unfold BradCache.dataAt BradCache.lineBytes at *
    unfold bradCacheLineSize bradCacheLineBits at *
    omega
  · exact (hheader 2 (by decide) (by decide)).trans hyoung
  · intro hzero
    exact hvalid ((hheader 0 (by decide) (by decide)).symm.trans hzero)
  · rw [← htag]
    apply wordAt_congr
    intro i hi
    rw [Nat.add_assoc]
    exact hheader (4 + i) (by omega) (by omega)
  · intro i hi
    dsimp only
    by_cases hlt : i < buf.length
    · rw [writeBytes_add hlt, if_pos hlt, List.getD_eq_getElem _ _ hlt]
    · rw [writeBytes_of_disjoint (.inr (by omega)), if_neg hlt, ← hdata i hi]
      exact Function.update_of_ne (by unfold BradCache.dataAt; omega) _ _

end Seen

/-! ### Caches without data -/

/-- A cache that was never initialised. -/
structure BradCache.Unused (c : BradCache) : Prop where
  sets : c.sets = 0
  blank : ∀ line, c.valid line = 0

/-- A cache whose lines hold zeros only. -/
structure BradCache.Zeroed (c : BradCache) : Prop where
  geometry : c.Geometry
  zero : ∀ line, ∀ i < 64, c.lines (BradCache.dataAt line + i) = 0

section Zeroed

variable {c : BradCache}

theorem findLine_unused (h : c.Unused) (addr : Word) (forWrite : Bool) :
    findLine c addr forWrite = ⟨c, none, []⟩ := by
  unfold findLine
  dsimp only
  rw [if_pos (by rw [h.sets]; exact Nat.zero_le _)]

theorem seen_unused (h : c.Unused) (addr : Word) (i : Nat) : c.seen addr i = 0 := by
  unfold BradCache.seen
  rw [if_neg fun hholds => hholds.1 (h.blank _)]

theorem read_zeroed (h : c.Zeroed) (addr : Word) {size : Nat} (hsize : size ≤ 64) :
    (bradCacheRead c addr size).1 = sizeToInt size ∧
      (bradCacheRead c addr size).2.2 = List.replicate size 0 ∧
      (bradCacheRead c addr size).2.1.Zeroed := by
  have hzero : ∀ {d : BradCache}, d.Zeroed → ∀ line,
      readBytes d.lines (BradCache.dataAt line) size = List.replicate size 0 := by
    intro d hd line
    unfold readBytes
    rw [List.map_congr_left fun i hi => hd.zero line i ((List.mem_range.mp hi).trans_le hsize),
      List.map_const', List.length_range]
  have hserved : ∃ line, (findLine c addr false).line = some line ∧
      (findLine c addr false).cache.Zeroed := by
    have hfound := findLine_lookup h.geometry addr false
    generalize findLine c addr false = found at hfound ⊢
    obtain ⟨hpos, hlt, hwaysPos, hfits⟩ := h.geometry
    cases hfound with
    | hit way touched hway hvalid htag htouched =>
        refine ⟨_, rfl, ⟨hpos, hlt, hwaysPos, hfits⟩, ?_⟩
        intro line i hi
        refine Eq.trans (Function.update_of_ne ?_ _ _) (h.zero line i hi)
        unfold BradCache.dataAt BradCache.lineBytes bradCacheLineSize bradCacheLineBits
        omega
    | miss way touched hway hfree htouched =>
        refine ⟨_, rfl, ⟨hpos, hlt, hwaysPos, hfits⟩, ?_⟩
        intro line i hi
        by_cases hne : line = c.setOf addr * c.ways + way
        · rw [hne]
          exact fill_data c _ false hi
        · have hsame := sameLine_fill c (c.tagOf addr) false hne (8 + i)
            (by unfold BradCache.lineBytes bradCacheLineSize bradCacheLineBits; omega)
          rw [← Nat.add_assoc] at hsame
          exact hsame.trans (h.zero line i hi)
  obtain ⟨line, hline, hzeroed⟩ := hserved
  unfold bradCacheRead
  dsimp only
  rw [hline]
  exact ⟨rfl, hzero hzeroed line, hzeroed⟩

end Zeroed

end BradVector
