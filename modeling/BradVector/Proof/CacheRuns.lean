import BradVector.Library.Commands
import BradVector.Proof.CacheLines
import Mathlib.Data.List.Infix

/-!
# Runs of a cache

Lookups, writes and flushes keep the lines of a set apart by their tags, as long as no write is
longer than a line: a longer one goes on in the header of the line behind.
-/

namespace BradVector

open CSem

/-- A call on an initialised cache. -/
inductive CacheOp where
  | read (addr : Word) (size : Nat)
  | write (addr : Word) (buf : List Byte)
  | flush
  | flushAddr (addr : Word)
  deriving DecidableEq, Repr

def BradCache.after (c : BradCache) : CacheOp → BradCache
  | .read addr size => (bradCacheRead c addr size).2.1
  | .write addr buf => (bradCacheWrite c addr buf).2
  | .flush => (bradCacheFlush c).2
  | .flushAddr addr => (bradCacheFlushAddr c addr).2.1

/-- The sets and ways a call looks at. A flush goes through all lines there are of the sets. -/
def BradCache.touched (c : BradCache) : CacheOp → List (Nat × Nat)
  | .read addr _ => (findLine c addr false).touched
  | .write addr _ => (findLine c addr true).touched
  | .flush => (List.range (c.sets * c.ways)).map fun i => (i / c.ways, i % c.ways)
  | .flushAddr addr => (bradCacheFlushAddr c addr).2.2

/-- The reads and writes count as hit or miss. -/
def CacheOp.lookups : CacheOp → Nat
  | .read _ _ => 1
  | .write _ _ => 1
  | .flush => 0
  | .flushAddr _ => 0

/-- A set and a way of it, inside the allocated table. -/
def BradCache.InTable (c : BradCache) (place : Nat × Nat) : Prop :=
  place.1 < c.sets ∧ place.2 < c.ways ∧ place.1 * c.ways + place.2 < c.allocated

/-- The valid lines of a set have different tags. -/
def BradCache.TagsUnique (c : BradCache) : Prop :=
  ∀ set < c.sets, ∀ i < c.ways, ∀ j < c.ways, c.valid (set * c.ways + i) ≠ 0 →
    c.valid (set * c.ways + j) ≠ 0 → c.tag (set * c.ways + i) = c.tag (set * c.ways + j) → i = j

/-- Hits and misses are the `n` lookups there have been. The counters have 64 bits. -/
def BradCache.Counts (c : BradCache) (n : Nat) : Prop :=
  ∃ h m : Nat, c.hits = BitVec.ofNat 64 h ∧ c.misses = BitVec.ofNat 64 m ∧ h + m = n

/-- The run of `ops` from `c`. -/
structure CacheSafe (c : BradCache) (ops : List CacheOp) : Prop where
  inTable : Throughout BradCache.after (fun d op => ∀ place ∈ d.touched op, d.InTable place) c ops
  unique : ∀ before, before <+: ops → (before.foldl BradCache.after c).TagsUnique
  sameLine : ∀ before, before <+: ops → ∀ a b : Word,
    (before.foldl BradCache.after c).setOf a = (before.foldl BradCache.after c).setOf b ∧
        (before.foldl BradCache.after c).tagOf a = (before.foldl BradCache.after c).tagOf b ↔
      a.toNat / bradCacheLineSize = b.toNat / bradCacheLineSize
  counted : ∀ before, before <+: ops →
    (before.foldl BradCache.after c).Counts (before.map CacheOp.lookups).sum

/-- A write does not go on behind the line. -/
def CacheOp.WithinLine : CacheOp → Prop
  | .write _ buf => buf.length ≤ bradCacheLineSize
  | _ => True

/-! ### What an operation does to the table -/

/-- The geometry stays, and what is valid was valid before with the same tag. -/
structure Fewer (c c' : BradCache) : Prop where
  sets : c'.sets = c.sets
  ways : c'.ways = c.ways
  allocated : c'.allocated = c.allocated
  kept : ∀ line, c'.valid line ≠ 0 → c.valid line ≠ 0 ∧ c'.tag line = c.tag line

section Fewer

variable {c c' : BradCache}

theorem Fewer.tagsUnique (h : Fewer c c') (hc : c.TagsUnique) : c'.TagsUnique := by
  intro set hset i hi j hj hvalidI hvalidJ htag
  rw [h.sets] at hset
  rw [h.ways] at hi hj hvalidI hvalidJ htag
  obtain ⟨hvalidI', htagI⟩ := h.kept _ hvalidI
  obtain ⟨hvalidJ', htagJ⟩ := h.kept _ hvalidJ
  apply hc set hset i hi j hj hvalidI' hvalidJ'
  rw [← htagI, ← htagJ]
  exact htag

theorem Fewer.geometry (h : Fewer c c') (hc : c.Geometry) : c'.Geometry := by
  obtain ⟨hsets, hlt, hways, hfits⟩ := hc
  refine ⟨?_, ?_, ?_, ?_⟩
  · rwa [h.sets]
  · rwa [h.sets]
  · rwa [h.ways]
  · rwa [h.sets, h.ways, h.allocated]

/-- The bytes of the header other than the valid bit do not matter. -/
theorem Fewer.setHeader (c : BradCache) (line o : Nat) (v : Byte) (hpos : 0 < o) (ho : o < 4) :
    Fewer c (c.setByte (BradCache.lineBytes * line + o) v) := by
  refine ⟨rfl, rfl, rfl, ?_⟩
  intro other hvalid
  by_cases hne : other = line
  · subst hne
    constructor
    · intro hzero
      apply hvalid
      exact (Function.update_of_ne (by omega) _ _).trans hzero
    · apply wordAt_congr
      intro i hi
      exact Function.update_of_ne (by omega) _ _
  · have hsame : SameLine c (c.setByte (BradCache.lineBytes * line + o) v) other :=
      sameLine_setByte c (ho.trans (by decide)) v hne
    rw [hsame.valid] at hvalid
    exact ⟨hvalid, hsame.tag⟩

theorem Fewer.clearValid (c : BradCache) (line : Nat) :
    Fewer c (c.setByte (BradCache.lineBytes * line) 0) := by
  refine ⟨rfl, rfl, rfl, ?_⟩
  intro other hvalid
  by_cases hne : other = line
  · subst hne
    exact absurd (Function.update_self _ _ _) hvalid
  · have hsame : SameLine c (c.setByte (BradCache.lineBytes * line) 0) other :=
      sameLine_setByte c (o := 0) (by decide) 0 hne
    rw [hsame.valid] at hvalid
    exact ⟨hvalid, hsame.tag⟩

theorem writeData_header (c : BradCache) (line other : Nat) {buf : List Byte}
    (hbuf : buf.length ≤ bradCacheLineSize) {o : Nat} (ho : o < 8) :
    writeBytes c.lines (BradCache.dataAt line) buf (BradCache.lineBytes * other + o) =
      c.lines (BradCache.lineBytes * other + o) := by
  apply writeBytes_of_disjoint
  unfold BradCache.dataAt BradCache.lineBytes
  unfold bradCacheLineSize bradCacheLineBits at *
  omega

/-- Data within a line change no header. -/
theorem Fewer.writeData (c : BradCache) (line : Nat) {buf : List Byte}
    (hbuf : buf.length ≤ bradCacheLineSize) :
    Fewer c { c with lines := writeBytes c.lines (BradCache.dataAt line) buf } := by
  refine ⟨rfl, rfl, rfl, ?_⟩
  intro other hvalid
  constructor
  · intro hzero
    exact hvalid ((writeData_header c line other hbuf (o := 0) (by decide)).trans hzero)
  · apply wordAt_congr
    intro i hi
    rw [Nat.add_assoc]
    exact writeData_header c line other hbuf (by omega)

end Fewer

theorem bradCacheRead_cache (c : BradCache) (addr : Word) (size : Nat) :
    (bradCacheRead c addr size).2.1 = (findLine c addr false).cache := by
  rw [bradCacheRead]
  cases (findLine c addr false).line with
  | none => rfl
  | some line => rfl

/-- What a change of the header, a clearing of the valid bit and a write within a line keep. -/
structure TableClosed (P : BradCache → Prop) : Prop where
  header : ∀ {c : BradCache} (line : Nat) {o : Nat} {v : Byte}, P c → 0 < o → o < 4 →
    (o = 2 → v = 0) →
    P (c.setByte (BradCache.lineBytes * line + o) v)
  clear : ∀ {c : BradCache} (line : Nat), P c → P (c.setByte (BradCache.lineBytes * line) 0)
  data : ∀ {c : BradCache} (line : Nat) {buf : List Byte}, P c → buf.length ≤ bradCacheLineSize →
    P { c with lines := writeBytes c.lines (BradCache.dataAt line) buf }

namespace TableClosed

variable {P : BradCache → Prop} {c : BradCache} (h : TableClosed P)
include h

theorem write {addr : Word} (hfound : P (findLine c addr true).cache) {buf : List Byte}
    (hbuf : buf.length ≤ bradCacheLineSize) : P (bradCacheWrite c addr buf).2 := by
  rw [bradCacheWrite]
  dsimp only
  cases (findLine c addr true).line with
  | none => exact hfound
  | some line =>
      have hdirty := h.header line (o := 1) (v := 1) hfound (by decide) (by decide) nofun
      exact h.data line hdirty hbuf

theorem flush (hc : P c) : P (bradCacheFlush c).2 := by
  rw [bradCacheFlush]
  split_ifs with hnull
  · exact hc
  · dsimp only
    generalize List.range (c.sets * c.ways) = lines
    clear hnull
    induction lines generalizing c with
    | nil => exact hc
    | cons i lines ih =>
        apply ih
        have hdirty := h.header i (o := 1) (v := 0) (h.clear i hc) (by decide) (by decide) nofun
        exact h.header i hdirty (by decide) (by decide) fun _ => rfl

theorem flushAddr (hc : P c) (addr : Word) : P (bradCacheFlushAddr c addr).2.1 := by
  rw [bradCacheFlushAddr]
  dsimp only
  split_ifs with hset
  · exact hc
  · cases (searchWays c (c.setOf addr) (c.tagOf addr) (List.range c.ways) 0 0).1 with
    | none => exact hc
    | some i => exact h.header _ (h.clear _ hc) (by decide) (by decide) nofun

end TableClosed

/-- A line is cleared and given to a tag that no way of its set has. -/
theorem tagsUnique_fill {c : BradCache} (hc : c.TagsUnique) {set way : Nat} {tag : Word}
    (forWrite : Bool) (hway : way < c.ways)
    (hfree : ∀ i < c.ways, c.valid (set * c.ways + i) ≠ 0 → c.tag (set * c.ways + i) ≠ tag) :
    (c.fill (set * c.ways + way) tag forWrite).TagsUnique := by
  intro set' hset i hi j hj hvalidI hvalidJ htag
  change i < c.ways at hi
  change j < c.ways at hj
  change (c.fill _ tag forWrite).valid (set' * c.ways + i) ≠ 0 at hvalidI
  change (c.fill _ tag forWrite).valid (set' * c.ways + j) ≠ 0 at hvalidJ
  change (c.fill _ tag forWrite).tag (set' * c.ways + i) =
    (c.fill _ tag forWrite).tag (set' * c.ways + j) at htag
  -- a line of the table is the one filled only in its set and way
  have hother : ∀ k < c.ways, ¬ (set' = set ∧ k = way) →
      SameLine c (c.fill (set * c.ways + way) tag forWrite) (set' * c.ways + k) := by
    intro k hk hne
    apply sameLine_fill
    intro heq
    have hsets : set' = set := by
      have hdiv := congrArg (· / c.ways) heq
      simp only [Nat.mul_comm _ c.ways, Nat.mul_add_div (by omega : 0 < c.ways),
        Nat.div_eq_of_lt hk, Nat.div_eq_of_lt hway, Nat.add_zero] at hdiv
      exact hdiv
    subst hsets
    exact hne ⟨rfl, Nat.add_left_cancel heq⟩
  by_cases hI : set' = set ∧ i = way
  · obtain ⟨rfl, rfl⟩ := hI
    by_contra hne
    have hJ := hother j hj fun h => hne h.2.symm
    rw [hJ.valid] at hvalidJ
    rw [hJ.tag, fill_tag] at htag
    exact hfree j hj hvalidJ htag.symm
  · have hsameI := hother i hi hI
    rw [hsameI.valid] at hvalidI
    rw [hsameI.tag] at htag
    by_cases hJ : set' = set ∧ j = way
    · obtain ⟨rfl, rfl⟩ := hJ
      rw [fill_tag] at htag
      exact absurd htag (hfree i hi hvalidI)
    · have hsameJ := hother j hj hJ
      rw [hsameJ.valid] at hvalidJ
      rw [hsameJ.tag] at htag
      exact hc set' hset i hi j hj hvalidI hvalidJ htag

/-! ### The operations -/

/-- The invariant of a run with `n` lookups so far. -/
structure BradCache.Inv (c : BradCache) (n : Nat) : Prop where
  geometry : c.Geometry
  unique : c.TagsUnique
  counts : c.Counts n

section Steps

variable {c : BradCache} {n : Nat} (h : c.Inv n)
include h

/-- A change that only leaves fewer lines valid keeps the invariant. -/
theorem BradCache.Inv.fewer {c' : BradCache} (hfewer : Fewer c c') (hhits : c'.hits = c.hits)
    (hmisses : c'.misses = c.misses) : c'.Inv n := by
  refine ⟨hfewer.geometry h.geometry, hfewer.tagsUnique h.unique, ?_⟩
  unfold BradCache.Counts
  rw [hhits, hmisses]
  exact h.counts

omit h in
theorem tableClosed_inv : TableClosed (·.Inv n) where
  header line _ _ h hpos ho _ := h.fewer (Fewer.setHeader _ line _ _ hpos ho) rfl rfl
  clear line h := h.fewer (Fewer.clearValid _ line) rfl rfl
  data line _ h hbuf := h.fewer (Fewer.writeData _ line hbuf) rfl rfl

theorem BradCache.Inv.findLine (addr : Word) (forWrite : Bool) :
    (findLine c addr forWrite).cache.Inv (n + 1) ∧
      ∃ line, (BradVector.findLine c addr forWrite).line = some line := by
  obtain ⟨hits, misses, hhits, hmisses, hsum⟩ := h.counts
  have hlookup := findLine_lookup h.geometry addr forWrite
  generalize BradVector.findLine c addr forWrite = found at hlookup ⊢
  cases hlookup with
  | hit way touched hway hvalid htag htouched =>
      have hfewer := Fewer.setHeader c (c.setOf addr * c.ways + way) 2 0 (by decide) (by decide)
      refine ⟨⟨?_, ?_, hits + 1, misses, ?_, hmisses, ?_⟩, _, rfl⟩
      · obtain ⟨hpos, hlt, hwaysPos, hfits⟩ := hfewer.geometry h.geometry
        exact ⟨hpos, hlt, hwaysPos, hfits⟩
      · exact hfewer.tagsUnique h.unique
      · dsimp only
        rw [hhits, BitVec.ofNat_add]
        rfl
      · omega
  | miss way touched hway hfree htouched =>
      refine ⟨⟨?_, ?_, hits, misses + 1, hhits, ?_, ?_⟩, _, rfl⟩
      · obtain ⟨hpos, hlt, hwaysPos, hfits⟩ := h.geometry
        exact ⟨hpos, hlt, hwaysPos, hfits⟩
      · exact tagsUnique_fill h.unique forWrite hway hfree
      · dsimp only
        rw [hmisses, BitVec.ofNat_add]
        rfl
      · omega

theorem BradCache.Inv.read (addr : Word) (size : Nat) :
    (bradCacheRead c addr size).2.1.Inv (n + 1) := by
  rw [bradCacheRead_cache]
  exact (h.findLine addr false).1

theorem BradCache.Inv.write (addr : Word) {buf : List Byte}
    (hbuf : buf.length ≤ bradCacheLineSize) :
    (bradCacheWrite c addr buf).2.Inv (n + 1) :=
  tableClosed_inv.write (h.findLine addr true).1 hbuf

end Steps

theorem BradCache.Inv.after {c : BradCache} {n : Nat} (h : c.Inv n) (op : CacheOp)
    (hop : op.WithinLine) : (c.after op).Inv (n + op.lookups) := by
  cases op with
  | read addr size => exact h.read addr size
  | write addr buf => exact h.write addr hop
  | flush => exact tableClosed_inv.flush h
  | flushAddr addr => exact tableClosed_inv.flushAddr h addr

theorem BradCache.Inv.foldl {c : BradCache} {n : Nat} (h : c.Inv n) (ops : List CacheOp)
    (hops : ∀ op ∈ ops, op.WithinLine) :
    (ops.foldl BradCache.after c).Inv (n + (ops.map CacheOp.lookups).sum) := by
  induction ops generalizing c n with
  | nil => exact h
  | cons op ops ih =>
      rw [List.map_cons, List.sum_cons, ← Nat.add_assoc]
      exact ih (h.after op (hops op List.mem_cons_self)) fun op' hop' =>
        hops op' (List.mem_cons_of_mem _ hop')

/-- The lookups stay in their set, and the flush in the sets there are. -/
theorem touched_inTable {c : BradCache} (h : c.Geometry) (op : CacheOp) :
    ∀ place ∈ c.touched op, c.InTable place := by
  have hinSet : ∀ set way, set < c.sets → way < c.ways → c.InTable (set, way) := by
    intro set way hset hway
    refine ⟨hset, hway, lt_of_lt_of_le ?_ h.fits⟩
    calc set * c.ways + way < set * c.ways + c.ways := Nat.add_lt_add_left hway _
      _ = (set + 1) * c.ways := (Nat.succ_mul set c.ways).symm
      _ ≤ c.sets * c.ways := Nat.mul_le_mul_right _ hset
  have hlookup : ∀ addr forWrite, ∀ place ∈ (findLine c addr forWrite).touched,
      c.InTable place := by
    intro addr forWrite place hplace
    have hfound := findLine_lookup h addr forWrite
    generalize findLine c addr forWrite = found at hfound hplace
    obtain ⟨hset, hway⟩ : place.1 = c.setOf addr ∧ place.2 < c.ways := by
      cases hfound with
      | hit _ touched _ _ _ htouched => exact htouched place hplace
      | miss _ touched _ _ htouched => exact htouched place hplace
    exact hinSet place.1 place.2 (by rw [hset]; exact setOf_lt h addr) hway
  intro place hplace
  cases op with
  | read addr size => exact hlookup addr false place hplace
  | write addr buf => exact hlookup addr true place hplace
  | flush =>
      obtain ⟨i, hi, rfl⟩ := List.mem_map.mp hplace
      exact hinSet _ _ (Nat.div_lt_of_lt_mul (Nat.mul_comm _ _ ▸ List.mem_range.mp hi))
        (Nat.mod_lt _ h.ways_pos)
  | flushAddr addr =>
      have hspec := searchWays_spec c (c.setOf addr) (c.tagOf addr) (List.range c.ways) 0 0
      unfold BradCache.touched bradCacheFlushAddr at hplace
      dsimp only at hplace
      rw [if_neg (Nat.not_le.mpr (setOf_lt h addr))] at hplace
      generalize searchWays c (c.setOf addr) (c.tagOf addr) (List.range c.ways) 0 0 = search
        at hspec hplace
      have hmem : place ∈ search.2.2.map fun i => (c.setOf addr, i) := by
        cases hsearch : search.1 with
        | some i => rwa [hsearch] at hplace
        | none => rwa [hsearch] at hplace
      obtain ⟨i, hi, rfl⟩ := List.mem_map.mp hmem
      exact hinSet _ _ (setOf_lt h addr) (List.mem_range.mp (hspec.touched hi))

/-- What `brad_cache_init` accepts, if there are not too many sets for the tag. -/
theorem bradCacheInit_inv {cache : BradCache} {level : BradCacheLevel}
    {sizeKb ways latencyHit latencyMiss : Word}
    (hinit : (bradCacheInit cache level sizeKb ways latencyHit latencyMiss).1 = 0)
    (hsets : (bradCacheInit cache level sizeKb ways latencyHit latencyMiss).2.sets < 2 ^ 26) :
    (bradCacheInit cache level sizeKb ways latencyHit latencyMiss).2.Inv 0 := by
  revert hinit hsets
  unfold bradCacheInit
  dsimp only
  split_ifs with hzero hnone
  · exact nofun
  · exact nofun
  · intro _ hsets
    refine ⟨⟨Nat.pos_of_ne_zero hnone, hsets, ?_, Nat.div_mul_le_self _ _⟩, ?_, 0, 0, rfl, rfl, rfl⟩
    · apply Nat.pos_of_ne_zero
      intro hways
      exact hzero (.inl (BitVec.eq_of_toNat_eq hways))
    · intro set _ i _ j _ hvalid
      exact absurd rfl hvalid

/-- **Runs of a cache.** As long as no write is longer than a line, the indices stay in the table,
the tags of a set stay unique, set and tag tell lines apart, and hits and misses count the reads and
writes. -/
theorem cache_safe (cache : BradCache) (level : BradCacheLevel)
    (sizeKb ways latencyHit latencyMiss : Word)
    (hinit : (bradCacheInit cache level sizeKb ways latencyHit latencyMiss).1 = 0)
    (hsets : (bradCacheInit cache level sizeKb ways latencyHit latencyMiss).2.sets < 2 ^ 26)
    (ops : List CacheOp) (hops : ∀ op ∈ ops, op.WithinLine) :
    CacheSafe (bradCacheInit cache level sizeKb ways latencyHit latencyMiss).2 ops := by
  have hinv := bradCacheInit_inv hinit hsets
  generalize (bradCacheInit cache level sizeKb ways latencyHit latencyMiss).2 = c at hinv
  have hreached : ∀ before, before <+: ops →
      (before.foldl BradCache.after c).Inv (before.map CacheOp.lookups).sum := by
    intro before hbefore
    have hrun := hinv.foldl before fun op hop => hops op (hbefore.subset hop)
    rwa [Nat.zero_add] at hrun
  refine ⟨?_, ?_, ?_, ?_⟩
  · have hwithin : Throughout BradCache.after (fun _ op => op.WithinLine) c ops :=
      throughout_of_forall hops
    refine hwithin.imp (I := fun d => ∃ n, d.Inv n) ⟨0, hinv⟩ ?_
    rintro d op ⟨n, hd⟩ hop
    exact ⟨touched_inTable hd.geometry op, _, hd.after op hop⟩
  · exact fun before hbefore => (hreached before hbefore).unique
  · exact fun before hbefore => sameLine_iff (hreached before hbefore).geometry
  · exact fun before hbefore => (hreached before hbefore).counts

theorem threeWays_safe :
    CacheSafe (bradCacheInit .zero .l1d 1 3 2 10).2
      [.write 0x40 [1, 2], .read 0x2040 4, .flushAddr 0x40, .read 0x40 2] :=
  cache_safe .zero .l1d 1 3 2 10 rfl (by decide) _ (by
    simp [CacheOp.WithinLine, bradCacheLineSize, bradCacheLineBits])

/-- A write of 72 bytes puts its last eight into the header of the next way, which becomes valid
with the tag of the first. -/
theorem longWrite_not_safe :
    ¬ ∀ (cache : BradCache) (level : BradCacheLevel) (sizeKb ways latencyHit latencyMiss : Word)
      (ops : List CacheOp),
      (bradCacheInit cache level sizeKb ways latencyHit latencyMiss).1 = 0 →
        (bradCacheInit cache level sizeKb ways latencyHit latencyMiss).2.sets < 2 ^ 26 →
          CacheSafe (bradCacheInit cache level sizeKb ways latencyHit latencyMiss).2 ops := by
  intro h
  have hsafe :=
    h .zero .l1d 1 2 2 10 [.write 0 (List.replicate 64 0 ++ [1, 0, 0, 0, 0, 0, 0, 0])] rfl
    (by decide)
  have hunique := hsafe.unique _ (List.prefix_refl _) 0 (by decide) 0 (by decide) 1 (by decide)
    (by decide) (by decide) (by decide)
  exact absurd hunique (by decide)

end BradVector
