import BradVector.Proof.CacheRuns

/-!
# Victims of a cache

A miss replaces the way with the greatest recency byte, and the first way where they are equal. Hits
and fills both store 0 there and nothing else is ever stored, so that the first way of a set is its
only one in use: with two ways or more, a miss that finds it in use replaces a valid line while the
others are free.
-/

namespace BradVector

open CSem

/-! ### Recency -/

/-- A way of the set of an address. -/
def BradCache.lineOf (c : BradCache) (addr : Word) (way : Nat) : Nat := c.setOf addr * c.ways + way

/-- No way of the set has the line of the address. -/
def BradCache.Misses (c : BradCache) (addr : Word) : Prop :=
  ∀ i < c.ways, c.valid (c.lineOf addr i) ≠ 0 → c.tag (c.lineOf addr i) ≠ c.tagOf addr

instance (c : BradCache) (addr : Word) : Decidable (c.Misses addr) :=
  inferInstanceAs (Decidable (∀ i < c.ways, _ → _))

/-- The address that a call looks up, and whether it is for a write. -/
def CacheOp.lookup : CacheOp → Option (Word × Bool)
  | .read addr _ => some (addr, false)
  | .write addr _ => some (addr, true)
  | .flush => none
  | .flushAddr _ => none

/-- A cache, the time of the last hit or fill of each line, 0 if there was none, and the time. -/
structure CacheSession where
  cache : BradCache
  last : Nat → Nat
  time : Nat

def CacheSession.start (c : BradCache) : CacheSession := ⟨c, fun _ => 0, 0⟩

/-- The line that a call hits or fills. -/
def CacheSession.used (s : CacheSession) (op : CacheOp) : Option Nat :=
  op.lookup.bind fun access => (findLine s.cache access.1 access.2).line

def CacheSession.next (s : CacheSession) (op : CacheOp) : CacheSession where
  cache := s.cache.after op
  last :=
    match s.used op with
    | some line => Function.update s.last line (s.time + 1)
    | none => s.last
  time := s.time + 1

/-- The way that takes the line of an address is free if one of its set is, and else the one that
was used the longest ago. -/
structure CacheSession.Oldest (s : CacheSession) (addr : Word) (way : Nat) : Prop where
  free : (∃ i < s.cache.ways, s.cache.valid (s.cache.lineOf addr i) = 0) →
    s.cache.valid (s.cache.lineOf addr way) = 0
  oldest : (∀ i < s.cache.ways, s.cache.valid (s.cache.lineOf addr i) ≠ 0) →
    ∀ i < s.cache.ways, s.last (s.cache.lineOf addr way) ≤ s.last (s.cache.lineOf addr i)

/-- What is expected of a call. -/
def CacheSession.ReplacesOldest (s : CacheSession) (op : CacheOp) : Prop :=
  ∀ addr forWrite, op.lookup = some (addr, forWrite) → s.cache.Misses addr →
    ∃ way < s.cache.ways, (findLine s.cache addr forWrite).line = some (s.cache.lineOf addr way) ∧
      s.Oldest addr way

/-- A miss finds the first way free, or there is no other. -/
def CacheSession.FindsFirstFree (s : CacheSession) (op : CacheOp) : Prop :=
  ∀ addr forWrite, op.lookup = some (addr, forWrite) → s.cache.Misses addr →
    s.cache.ways = 1 ∨ s.cache.valid (s.cache.lineOf addr 0) = 0

/-! ### Lookups -/

/-- What holds of a cache whose lines are written one at a time: no recency byte is ever set, and no
way but the first is ever in use. -/
structure BradCache.FirstWays (c : BradCache) : Prop where
  sets_pos : 0 < c.sets
  sets_lt : c.sets < 2 ^ 32
  ways_pos : 0 < c.ways
  lru : ∀ line, c.lru line = 0
  others : ∀ set way, 0 < way → way < c.ways → c.valid (set * c.ways + way) = 0

/-- Among equal ways the first is replaced. -/
theorem searchWays_victim {c : BradCache} (hlru : ∀ line, c.lru line = 0) (set : Nat) (tag : Word)
    (is : List Nat) (lruWay : Nat) (lruVal : Byte) :
    (searchWays c set tag is lruWay lruVal).2.1 = lruWay := by
  induction is with
  | nil => rfl
  | cons i is ih =>
      rw [searchWays]
      dsimp only
      split_ifs with hhit hgreater
      · rfl
      · rw [hlru] at hgreater
        exact absurd hgreater BitVec.not_lt_zero
      · exact ih

section Lookups

variable {c : BradCache} (h : c.FirstWays)
include h

theorem BradCache.FirstWays.lookup (addr : Word) (forWrite : Bool) :
    (c.Misses addr ∧ (findLine c addr forWrite).line = some (c.lineOf addr 0) ∧
        (findLine c addr forWrite).cache =
          { c.fill (c.lineOf addr 0) (c.tagOf addr) forWrite with misses := c.misses + 1 }) ∨
      ¬ c.Misses addr ∧ ∃ line, (findLine c addr forWrite).line = some line ∧
        (findLine c addr forWrite).cache =
          { c.setByte (BradCache.lineBytes * line + 2) 0 with hits := c.hits + 1 } := by
  have hspec := searchWays_spec c (c.setOf addr) (c.tagOf addr) (List.range c.ways) 0
    (c.lru (c.setOf addr * c.ways))
  have hvictim := searchWays_victim h.lru (c.setOf addr) (c.tagOf addr) (List.range c.ways) 0
    (c.lru (c.setOf addr * c.ways))
  rw [findLine]
  dsimp only
  rw [if_neg (Nat.not_le.mpr (setOf_lt_sets h.sets_pos h.sets_lt addr))]
  generalize searchWays c (c.setOf addr) (c.tagOf addr) (List.range c.ways) 0
    (c.lru (c.setOf addr * c.ways)) = search at hspec hvictim
  cases hsearch : search.1 with
  | some i =>
      obtain ⟨hi, hvalid, htag⟩ := hspec.hit i hsearch
      refine .inr ⟨fun hmiss => ?_, _, rfl, rfl⟩
      exact hmiss i (List.mem_range.mp hi) hvalid htag
  | none =>
      refine .inl ⟨fun i hi => hspec.miss hsearch i (List.mem_range.mpr hi), ?_, ?_⟩
      · rw [hvictim]
        rfl
      · rw [hvictim]
        rfl

/-! ### The table -/

theorem BradCache.FirstWays.fewer {c' : BradCache} (hfewer : Fewer c c')
    (hlru : ∀ line, c'.lru line = 0) : c'.FirstWays := by
  refine ⟨hfewer.sets ▸ h.sets_pos, hfewer.sets ▸ h.sets_lt, hfewer.ways ▸ h.ways_pos, hlru, ?_⟩
  intro set way hpos hway
  rw [hfewer.ways] at hway ⊢
  by_contra hvalid
  exact (hfewer.kept _ hvalid).1 (h.others set way hpos hway)

/-- A recency byte is only ever cleared. -/
theorem BradCache.FirstWays.lru_setByte (line : Nat) {o : Nat} (ho : o < 4) (v : Byte)
    (hzero : o = 2 → v = 0) (other : Nat) :
    (c.setByte (BradCache.lineBytes * line + o) v).lru other = 0 := by
  by_cases hne : other = line
  · subst hne
    by_cases htwo : o = 2
    · rw [htwo, hzero htwo]
      exact Function.update_self _ _ _
    · exact (Function.update_of_ne (by omega) _ _).trans (h.lru other)
  · exact (sameLine_setByte c (ho.trans (by decide)) v hne).lru.trans (h.lru other)

omit h in
theorem tableClosed_firstWays : TableClosed BradCache.FirstWays where
  header line _ v h hpos ho hzero :=
    h.fewer (Fewer.setHeader _ line _ v hpos ho) (h.lru_setByte line ho v hzero)
  clear line h :=
    h.fewer (Fewer.clearValid _ line) (h.lru_setByte line (o := 0) (by decide) 0 nofun)
  data line _ h hbuf :=
    h.fewer (Fewer.writeData _ line hbuf) fun other =>
      (writeData_header _ line other hbuf (by decide)).trans (h.lru other)

/-- The first way of a set takes a line. -/
theorem BradCache.FirstWays.fill (set : Nat) (tag : Word) (forWrite : Bool) :
    (c.fill (set * c.ways + 0) tag forWrite).FirstWays := by
  refine ⟨h.sets_pos, h.sets_lt, h.ways_pos, ?_, ?_⟩
  · intro line
    by_cases hne : line = set * c.ways + 0
    · rw [hne, fill_lru]
    · exact (sameLine_fill c tag forWrite hne).lru.trans (h.lru line)
  · intro set' way hpos hway
    change way < c.ways at hway
    have hne : set' * c.ways + way ≠ set * c.ways + 0 := by
      intro heq
      have hmod := congrArg (· % c.ways) heq
      simp only [Nat.mul_add_mod_self_right, Nat.zero_mod] at hmod
      rw [Nat.mod_eq_of_lt hway] at hmod
      exact hpos.ne' hmod
    exact (sameLine_fill c tag forWrite hne).valid.trans (h.others set' way hpos hway)

/-! ### Calls -/

theorem BradCache.FirstWays.findLine (addr : Word) (forWrite : Bool) :
    (findLine c addr forWrite).cache.FirstWays := by
  rcases h.lookup addr forWrite with ⟨-, -, hcache⟩ | ⟨-, line, -, hcache⟩
  · have hfill := h.fill (c.setOf addr) (c.tagOf addr) forWrite
    rw [hcache]
    exact ⟨hfill.sets_pos, hfill.sets_lt, hfill.ways_pos, hfill.lru, hfill.others⟩
  · have hset :=
      tableClosed_firstWays.header line (o := 2) (v := 0) h (by decide) (by decide) fun _ => rfl
    rw [hcache]
    exact ⟨hset.sets_pos, hset.sets_lt, hset.ways_pos, hset.lru, hset.others⟩

theorem BradCache.FirstWays.after (op : CacheOp) (hop : op.WithinLine) :
    (c.after op).FirstWays := by
  cases op with
  | read addr size =>
      rw [BradCache.after, bradCacheRead_cache]
      exact h.findLine addr false
  | write addr buf => exact tableClosed_firstWays.write (h.findLine addr true) hop
  | flush => exact tableClosed_firstWays.flush h
  | flushAddr addr => exact tableClosed_firstWays.flushAddr h addr

end Lookups

theorem bradCacheInit_firstWays {cache : BradCache} {level : BradCacheLevel}
    {sizeKb ways latencyHit latencyMiss : Word}
    (hinit : (bradCacheInit cache level sizeKb ways latencyHit latencyMiss).1 = 0) :
    (bradCacheInit cache level sizeKb ways latencyHit latencyMiss).2.FirstWays := by
  revert hinit
  rw [bradCacheInit]
  dsimp only
  split_ifs with hzero hnone
  · exact nofun
  · exact nofun
  · intro _
    refine ⟨Nat.pos_of_ne_zero hnone, ?_, ?_, fun _ => rfl, fun _ _ _ _ => rfl⟩
    · exact (Nat.div_le_self _ _).trans_lt (Nat.mod_lt _ (by decide))
    · apply Nat.pos_of_ne_zero
      intro hways
      exact hzero (.inl (BitVec.eq_of_toNat_eq hways))

/-! ### Runs -/

/-- A miss replaces as expected exactly if the first way is free or the only one. -/
theorem replacesOldest_iff {s : CacheSession} (h : s.cache.FirstWays) (op : CacheOp) :
    s.ReplacesOldest op ↔ s.FindsFirstFree op := by
  apply forall_congr'
  intro addr
  apply forall_congr'
  intro forWrite
  apply imp_congr_right
  intro _
  apply imp_congr_right
  intro hmiss
  have hline : (findLine s.cache addr forWrite).line = some (s.cache.lineOf addr 0) := by
    rcases h.lookup addr forWrite with ⟨-, hline, -⟩ | ⟨hhit, -⟩
    · exact hline
    · exact absurd hmiss hhit
  constructor
  · rintro ⟨way, hway, htakes, holdest⟩
    have hfirst : way = 0 := by
      rw [hline, Option.some_inj] at htakes
      exact (Nat.add_left_cancel htakes).symm
    subst hfirst
    by_cases hone : s.cache.ways = 1
    · exact .inl hone
    · have hsecond : 1 < s.cache.ways := by
        have hpos := h.ways_pos
        omega
      exact .inr (holdest.free ⟨1, hsecond, h.others _ 1 Nat.one_pos hsecond⟩)
  · intro hcond
    refine ⟨0, h.ways_pos, hline, ?_, ?_⟩
    · rintro ⟨i, hi, hfree⟩
      rcases hcond with hone | hfirst
      · obtain rfl : i = 0 := by omega
        exact hfree
      · exact hfirst
    · intro hall i hi
      rcases hcond with hone | hfirst
      · obtain rfl : i = 0 := by omega
        exact Nat.le_refl _
      · exact absurd hfirst (hall 0 h.ways_pos)

/-- **Victims.** In a run without a write longer than a line, the misses replace a free way where
there is one, and else the one used the longest ago, exactly if each finds the first way free or the
only one. -/
theorem cache_replaces_oldest_iff (cache : BradCache) (level : BradCacheLevel)
    (sizeKb ways latencyHit latencyMiss : Word)
    (hinit : (bradCacheInit cache level sizeKb ways latencyHit latencyMiss).1 = 0)
    (ops : List CacheOp) (hops : ∀ op ∈ ops, op.WithinLine) :
    Throughout CacheSession.next CacheSession.ReplacesOldest
        (.start (bradCacheInit cache level sizeKb ways latencyHit latencyMiss).2) ops ↔
      Throughout CacheSession.next CacheSession.FindsFirstFree
        (.start (bradCacheInit cache level sizeKb ways latencyHit latencyMiss).2) ops := by
  apply throughout_iff (throughout_of_forall hops) (I := fun s => s.cache.FirstWays)
  · exact bradCacheInit_firstWays hinit
  · exact fun s op hs _ => replacesOldest_iff hs op
  · exact fun s op hs hop _ => hs.after op hop

/-- Two lines in different sets, and one of them again after its set has been flushed. -/
theorem cache_replaces_oldest_flushed :
    Throughout CacheSession.next CacheSession.ReplacesOldest
      (.start (bradCacheInit .zero .l1d 1 2 2 10).2)
      [.write 0 [1, 2], .read 0x40 4, .flushAddr 0, .read 0x200 4] := by
  apply (cache_replaces_oldest_iff .zero .l1d 1 2 2 10 rfl _ ?_).mpr
  · refine ⟨?_, ?_, ?_, ?_, trivial⟩
    · rintro addr forWrite haccess -
      cases haccess
      exact .inr (by decide)
    · rintro addr forWrite haccess -
      cases haccess
      exact .inr (by decide)
    · nofun
    · rintro addr forWrite haccess -
      cases haccess
      exact .inr (by decide)
  · simp [CacheOp.WithinLine, bradCacheLineSize, bradCacheLineBits]

/-- Two lines of one set of two ways. -/
theorem second_line_replaces_first :
    ¬ Throughout CacheSession.next CacheSession.ReplacesOldest
      (.start (bradCacheInit .zero .l1d 1 2 2 10).2) [.read 0 4, .read 0x200 4] := by
  rintro ⟨-, hsecond, -⟩
  obtain ⟨way, hway, hline, holdest⟩ := hsecond 0x200 false rfl (by decide)
  have hfirst : way = 0 := by
    have hzero := Option.some.inj hline
    change 0 = 0 + way at hzero
    omega
  rw [hfirst] at holdest
  exact absurd (holdest.free ⟨1, by decide, by decide⟩) (by decide)

end BradVector
