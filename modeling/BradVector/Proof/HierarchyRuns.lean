import BradVector.Library.Commands
import BradVector.Proof.L1Data
import Mathlib.Data.List.Infix

/-!
# Reads through the hierarchy

Writes only ever reach the L1 data cache of the core that makes them, at the start of the line
whatever the address, and a line that is fetched comes as zeros. A read returns what was last
written to its addresses if the last write of each byte was the core's own, at the same address, and
its line has stayed.
-/

namespace BradVector

open CSem

/-- A data access of a core. -/
inductive HierarchyOp where
  | read (cluster core : Nat) (addr : Word) (size : Nat)
  | write (cluster core : Nat) (addr : Word) (buf : List Byte)
  deriving DecidableEq, Repr

namespace HierarchyOp

def cluster : HierarchyOp → Nat
  | read c _ _ _ => c
  | write c _ _ _ => c

def core : HierarchyOp → Nat
  | read _ k _ _ => k
  | write _ k _ _ => k

def addr : HierarchyOp → Word
  | read _ _ a _ => a
  | write _ _ a _ => a

def size : HierarchyOp → Nat
  | read _ _ _ n => n
  | write _ _ _ buf => buf.length

/-- An access within one line, from a core there is a place for. -/
def WithinLine (op : HierarchyOp) : Prop :=
  op.addr.toNat % 64 + op.size ≤ 64 ∧ op.cluster < bradMaxClusters ∧ op.core < bradCoresPerCluster

/-- A write to the byte at `a`, from whatever core. -/
def Covers (a : Nat) : HierarchyOp → Prop
  | read _ _ _ _ => False
  | write _ _ at' buf => at'.toNat ≤ a ∧ a < at'.toNat + buf.length

/-- The core writes byte `i` of the data of the line, and so a byte at whatever offset of it. -/
def Overlays (cluster core : Nat) (addr : Word) (i : Nat) : HierarchyOp → Prop
  | read _ _ _ _ => False
  | write c k at' buf => c = cluster ∧ k = core ∧ SameCacheLine addr at' ∧ i < buf.length

/-- The core accesses another line of the same set. -/
def Evicts (cluster core : Nat) (addr : Word) (op : HierarchyOp) : Prop :=
  op.cluster = cluster ∧ op.core = core ∧ SameSet addr op.addr ∧ ¬ SameCacheLine addr op.addr

/-- The access has to do neither with byte `i` behind `addr` nor with what the core has of it. -/
def Undisturbing (cluster core : Nat) (addr : Word) (i : Nat) (op : HierarchyOp) : Prop :=
  ¬ op.Covers (addr.toNat + i) ∧ ¬ op.Overlays cluster core addr i ∧ ¬ op.Evicts cluster core addr

instance (a : Nat) : (op : HierarchyOp) → Decidable (op.Covers a)
  | read _ _ _ _ => inferInstanceAs (Decidable False)
  | write _ _ _ _ => inferInstanceAs (Decidable (_ ∧ _))

instance (cluster core : Nat) (addr : Word) (i : Nat) :
    (op : HierarchyOp) → Decidable (op.Overlays cluster core addr i)
  | read _ _ _ _ => inferInstanceAs (Decidable False)
  | write _ _ _ _ => inferInstanceAs (Decidable (_ ∧ _ ∧ _ ∧ _))

instance (cluster core : Nat) (addr : Word) (op : HierarchyOp) :
    Decidable (op.Evicts cluster core addr) :=
  inferInstanceAs (Decidable (_ ∧ _ ∧ _ ∧ _))

instance (cluster core : Nat) (addr : Word) (i : Nat) (op : HierarchyOp) :
    Decidable (op.Undisturbing cluster core addr i) :=
  inferInstanceAs (Decidable (_ ∧ _ ∧ _))

end HierarchyOp

/-- The hierarchy, and the memory that the writes would have made. -/
structure HierarchyRun where
  h : BradCacheHierarchy
  mem : Nat → Byte

def HierarchyRun.next (s : HierarchyRun) : HierarchyOp → HierarchyRun
  | .read c k addr size => { s with h := (bradHierarchyRead s.h c k true addr size).2.1 }
  | .write c k addr buf =>
      { h := (bradHierarchyWrite s.h c k addr buf).2
        mem := writeBytes s.mem addr.toNat buf }

/-- A read returns what was last written, or zeros. -/
def HierarchyRun.ReadsWritten (s : HierarchyRun) : HierarchyOp → Prop
  | .read c k addr size =>
      (bradHierarchyRead s.h c k true addr size).2.2 = readBytes s.mem addr.toNat size
  | .write _ _ _ _ => True

def HierarchyRun.start (h : BradCacheHierarchy) : HierarchyRun := ⟨h, fun _ => 0⟩

/-- Every read of the run returns what was last written. -/
def HierarchySafe (h : BradCacheHierarchy) (ops : List HierarchyOp) : Prop :=
  Throughout HierarchyRun.next HierarchyRun.ReadsWritten (.start h) ops

/-- After the accesses `before`, what the core has of byte `i` behind `addr` is its own last write
of it: at this very address, with nothing in between that concerns the byte or the core's copy. Or
the byte was never written, and since the line last left the core's cache the core has not written
the line as far as `i`. -/
def OwnByte (used : Prop) (before : List HierarchyOp) (cluster core : Nat) (addr : Word) (i : Nat) :
    Prop :=
  (used ∧ ∃ older buf newer, before = older ++ .write cluster core addr buf :: newer ∧
    i < buf.length ∧
      ∀ op ∈ newer, op.Undisturbing cluster core addr i) ∨
    ((∀ op ∈ before, ¬ op.Covers (addr.toNat + i)) ∧
      (used → ∃ older newer, before = older ++ newer ∧
        (older = [] ∨ ∃ first last, older = first ++ [last] ∧ last.Evicts cluster core addr) ∧
        ∀ op ∈ newer, ¬ op.Overlays cluster core addr i))

/-! ### The invariant -/

/-- The L1 data caches in use, and the other caches, which never get data. -/
structure BradCacheHierarchy.Inv (h : BradCacheHierarchy) (used : Nat → Nat → Prop) : Prop where
  ready : ∀ c k, used c k → (h.l1d c k).Ready
  unused : ∀ c k, ¬ used c k → (h.l1d c k).Unused
  l2 : ∀ c, (h.l2 c).Zeroed ∨ (h.l2 c).Unused
  l3 : h.l3.Zeroed

section Access

variable {h : BradCacheHierarchy} {used : Nat → Nat → Prop}

theorem setL1_l1d (h : BradCacheHierarchy) (c k : Nat) (cache : BradCache) (c' k' : Nat) :
    (h.setL1 true c k cache).l1d c' k' = if c' = c ∧ k' = k then cache else h.l1d c' k' := by
  unfold BradCacheHierarchy.setL1
  by_cases hc : c' = c
  · subst hc
    by_cases hk : k' = k
    · subst hk
      simp
    · simp [hk]
  · simp [hc]

/-- An access of one core leaves the invariant, and what the others see, if its cache stays
ready. -/
theorem BradCacheHierarchy.Inv.setL1 (hinv : h.Inv used) {c k : Nat} {cache : BradCache}
    (hready : used c k → cache.Ready) (hunused : ¬ used c k → cache.Unused) :
    (h.setL1 true c k cache).Inv used := by
  refine ⟨?_, ?_, hinv.l2, hinv.l3⟩
  · intro c' k' hused
    rw [setL1_l1d]
    split
    · obtain ⟨rfl, rfl⟩ := ‹_ ∧ _›
      exact hready hused
    · exact hinv.ready c' k' hused
  · intro c' k' hused
    rw [setL1_l1d]
    split
    · obtain ⟨rfl, rfl⟩ := ‹_ ∧ _›
      exact hunused hused
    · exact hinv.unused c' k' hused

theorem sizeToInt_nonneg {size : Nat} (h : size ≤ 64) : 0 ≤ sizeToInt size := by
  have hsmall : 2 * (BitVec.ofNat 32 size).toNat < 2 ^ 32 := by
    rw [BitVec.toNat_ofNat]
    omega
  unfold sizeToInt
  rw [BitVec.toInt_eq_toNat_of_lt hsmall]
  exact Int.natCast_nonneg _

/-- What is left of the hierarchy after a read, and what it returns. -/
structure ReadSpec (h : BradCacheHierarchy) (used : Nat → Nat → Prop) (c k : Nat) (addr : Word)
    (size : Nat) (r : Int × BradCacheHierarchy × List Byte) : Prop where
  inv : r.2.1.Inv used
  bytes : r.2.2 = (List.range size).map ((h.l1d c k).seen addr)
  others : ∀ c' k', ¬ (c' = c ∧ k' = k) → r.2.1.l1d c' k' = h.l1d c' k'
  serves : used c k → Serves (h.l1d c k) (r.2.1.l1d c k) addr ((h.l1d c k).seen addr)

theorem BradCacheHierarchy.Inv.read (hinv : h.Inv used) (c k : Nat) (addr : Word) {size : Nat}
    (hsize : size ≤ 64) :
    ReadSpec h used c k addr size (bradHierarchyRead h c k true addr size) := by
  have hnonneg := sizeToInt_nonneg hsize
  unfold bradHierarchyRead
  dsimp only
  change ReadSpec h used c k addr size
    (if 0 ≤ (bradCacheRead (h.l1d c k) addr size).1 then _ else _)
  by_cases hused : used c k
  · obtain ⟨hret, hbytes, hserves⟩ := read_ready (hinv.ready c k hused) addr hsize
    rw [hret, if_pos hnonneg]
    refine ⟨?_, hbytes, ?_, ?_⟩
    · exact hinv.setL1 (fun _ => hserves.ready (hinv.ready c k hused)) fun hnot => absurd hused hnot
    · intro c' k' hne
      exact (setL1_l1d h c k _ c' k').trans (if_neg hne)
    · intro _
      rw [setL1_l1d, if_pos ⟨rfl, rfl⟩]
      exact hserves
  · have hcache := hinv.unused c k hused
    have hrefused : ¬ (0 : Int) ≤ -efault := by decide
    have hmiss : ∀ {cache : BradCache}, cache.Unused →
        bradCacheRead cache addr size = (-efault, cache, []) := by
      intro cache hunused
      unfold bradCacheRead
      rw [findLine_unused hunused]
    have hzeros : List.replicate size 0 = (List.range size).map ((h.l1d c k).seen addr) := by
      rw [List.map_congr_left fun i _ => seen_unused hcache addr i, List.map_const',
        List.length_range]
    have hothers : ∀ c' k', ¬ (c' = c ∧ k' = k) →
        (h.setL1 true c k (h.l1d c k)).l1d c' k' = h.l1d c' k' := by
      intro c' k' hne
      exact (setL1_l1d h c k _ c' k').trans (if_neg hne)
    have hbase : (h.setL1 true c k (h.l1d c k)).Inv used :=
      hinv.setL1 (fun h' => absurd h' hused) fun _ => hcache
    rw [show h.l1 true c k = h.l1d c k from rfl, hmiss hcache, if_neg hrefused]
    have hl2 : (h.setL1 true c k (h.l1d c k)).l2 c = h.l2 c := rfl
    rw [hl2]
    obtain hl2 | hl2 := hinv.l2 c
    · obtain ⟨hret, hbytes, hzeroed⟩ := read_zeroed hl2 addr hsize
      rw [hret, if_pos hnonneg]
      refine ⟨⟨hbase.ready, hbase.unused, ?_, hbase.l3⟩, hbytes.trans hzeros, hothers,
        fun h' => absurd h' hused⟩
      intro c'
      by_cases hc : c' = c
      · subst hc
        left
        dsimp only
        rwa [Function.update_self]
      · dsimp only
        rw [Function.update_of_ne hc]
        exact hbase.l2 c'
    · obtain ⟨hret, hbytes, hzeroed⟩ := read_zeroed hinv.l3 addr hsize
      rw [hmiss hl2, if_neg hrefused]
      dsimp only
      have hl3 : (h.setL1 true c k (h.l1d c k)).l3 = h.l3 := rfl
      rw [hl3, hret, if_pos hnonneg]
      refine ⟨⟨hbase.ready, hbase.unused, ?_, hzeroed⟩, hbytes.trans hzeros, hothers,
        fun h' => absurd h' hused⟩
      intro c'
      dsimp only
      rw [← show (h.setL1 true c k (h.l1d c k)).l2 c = h.l2 c from rfl, Function.update_eq_self]
      exact hbase.l2 c'

/-- What is left after a write. -/
structure WriteSpec (h : BradCacheHierarchy) (used : Nat → Nat → Prop) (c k : Nat) (addr : Word)
    (buf : List Byte) (h' : BradCacheHierarchy) : Prop where
  inv : h'.Inv used
  others : ∀ c' k', ¬ (c' = c ∧ k' = k) → h'.l1d c' k' = h.l1d c' k'
  serves : used c k → Serves (h.l1d c k) (h'.l1d c k) addr
    (fun i => if i < buf.length then buf.getD i 0 else (h.l1d c k).seen addr i)

theorem BradCacheHierarchy.Inv.write (hinv : h.Inv used) (c k : Nat) (addr : Word) {buf : List Byte}
    (hbuf : buf.length ≤ 64) : WriteSpec h used c k addr buf
      (bradHierarchyWrite h c k addr buf).2 := by
  unfold bradHierarchyWrite
  dsimp only
  refine ⟨hinv.setL1 ?_ ?_, ?_, ?_⟩
  · intro hused
    exact (write_ready (hinv.ready c k hused) addr hbuf).ready (hinv.ready c k hused)
  · intro hused
    have hcache := hinv.unused c k hused
    unfold bradCacheWrite
    rw [findLine_unused hcache]
    exact hcache
  · intro c' k' hne
    exact (setL1_l1d h c k _ c' k').trans (if_neg hne)
  · intro hused
    rw [setL1_l1d, if_pos ⟨rfl, rfl⟩]
    exact write_ready (hinv.ready c k hused) addr hbuf

end Access

/-! ### What a core has of a byte -/

section Byte

variable {used : Nat → Nat → Prop} {s : HierarchyRun} {cluster core : Nat} {addr : Word} {i : Nat}

/-- The byte that the core would read. -/
def HierarchyRun.seen (s : HierarchyRun) (cluster core : Nat) (addr : Word) (i : Nat) : Byte :=
  (s.h.l1d cluster core).seen addr i

theorem HierarchyOp.WithinLine.size_le {op : HierarchyOp} (h : op.WithinLine) : op.size ≤ 64 := by
  have hline := h.1
  omega

theorem inv_next (hinv : s.h.Inv used) {op : HierarchyOp} (hop : op.WithinLine) :
    (s.next op).h.Inv used := by
  cases op with
  | read c k a size => exact (hinv.read c k a hop.size_le).inv
  | write c k a buf => exact (hinv.write c k a hop.size_le).inv

/-- The bytes an access leaves in its line. -/
def HierarchyRun.served (s : HierarchyRun) : HierarchyOp → Nat → Byte
  | .read c k a _ => s.seen c k a
  | .write c k a buf => fun i => if i < buf.length then buf.getD i 0 else s.seen c k a i

theorem seen_next_self (hinv : s.h.Inv used) {op : HierarchyOp} (hop : op.WithinLine)
    (hused : used op.cluster op.core) (hi : i < 64) :
    (s.next op).seen op.cluster op.core addr i =
      seenAfter (s.h.l1d op.cluster op.core) op.addr (s.served op) addr i := by
  cases op with
  | read c k a size =>
      exact ((hinv.read c k a hop.size_le).serves hused).seen (hinv.ready c k hused) addr hi
  | write c k a buf =>
      exact ((hinv.write c k a hop.size_le).serves hused).seen (hinv.ready c k hused) addr hi

theorem seen_next_other (hinv : s.h.Inv used) {op : HierarchyOp} (hop : op.WithinLine)
    (hother : ¬ (op.cluster = cluster ∧ op.core = core)) :
    (s.next op).seen cluster core addr i = s.seen cluster core addr i := by
  have hne : ¬ (cluster = op.cluster ∧ core = op.core) := fun h => hother ⟨h.1.symm, h.2.symm⟩
  unfold HierarchyRun.seen
  cases op with
  | read c k a size =>
      exact congrArg (·.seen addr i) ((hinv.read c k a hop.size_le).others cluster core hne)
  | write c k a buf =>
      exact congrArg (·.seen addr i) ((hinv.write c k a hop.size_le).others cluster core hne)

theorem seen_of_unused (hinv : s.h.Inv used) (hunused : ¬ used cluster core) :
    s.seen cluster core addr i = 0 :=
  seen_unused (hinv.unused cluster core hunused) addr i

/-- An access to the line that does not overlay the byte leaves what was seen of it. -/
theorem served_of_not_overlays (hinv : s.h.Inv used) {op : HierarchyOp}
    (hused : used op.cluster op.core) (hline : SameCacheLine addr op.addr)
    (hkeep : ¬ op.Overlays op.cluster op.core addr i) :
    s.served op i = s.seen op.cluster op.core addr i := by
  have hready := hinv.ready op.cluster op.core hused
  cases op with
  | read c k a size => exact (seen_congr hready hline i).symm
  | write c k a buf =>
      have hlong : ¬ i < buf.length := fun hlt => hkeep ⟨rfl, rfl, hline, hlt⟩
      exact (if_neg hlong).trans (seen_congr hready hline i).symm

theorem seen_next_of_keeps (hinv : s.h.Inv used) {op : HierarchyOp} (hop : op.WithinLine)
    (hi : i < 64)
    (hoverlays : ¬ op.Overlays cluster core addr i) (hevicts : ¬ op.Evicts cluster core addr) :
    (s.next op).seen cluster core addr i = s.seen cluster core addr i := by
  by_cases hself : op.cluster = cluster ∧ op.core = core
  · obtain ⟨rfl, rfl⟩ := hself
    by_cases hused : used op.cluster op.core
    · rw [seen_next_self hinv hop hused hi]
      unfold seenAfter
      by_cases hline : SameCacheLine addr op.addr
      · rw [if_pos hline]
        exact served_of_not_overlays hinv hused hline hoverlays
      · rw [if_neg hline, if_neg fun hset => hevicts ⟨rfl, rfl, hset, hline⟩]
        rfl
    · rw [seen_of_unused hinv hused, seen_of_unused (inv_next hinv hop) hused]
  · exact seen_next_other hinv hop hself

theorem seen_next_of_evicts (hinv : s.h.Inv used) {op : HierarchyOp} (hop : op.WithinLine)
    (hi : i < 64)
    (hevicts : op.Evicts cluster core addr) : (s.next op).seen cluster core addr i = 0 := by
  obtain ⟨rfl, rfl, hset, hline⟩ := hevicts
  by_cases hused : used op.cluster op.core
  · rw [seen_next_self hinv hop hused hi]
    unfold seenAfter
    rw [if_neg hline, if_pos hset]
  · exact seen_of_unused (inv_next hinv hop) hused

/-- A byte of which nothing is seen stays so unless it is overlaid. -/
theorem seen_next_eq_zero (hinv : s.h.Inv used) {op : HierarchyOp} (hop : op.WithinLine)
    (hi : i < 64)
    (hoverlays : ¬ op.Overlays cluster core addr i) (hzero : s.seen cluster core addr i = 0) :
    (s.next op).seen cluster core addr i = 0 := by
  by_cases hevicts : op.Evicts cluster core addr
  · exact seen_next_of_evicts hinv hop hi hevicts
  · rw [seen_next_of_keeps hinv hop hi hoverlays hevicts, hzero]

theorem mem_next_of_not_covers {op : HierarchyOp} {a : Nat} (h : ¬ op.Covers a) :
    (s.next op).mem a = s.mem a := by
  cases op with
  | read c k at' size => rfl
  | write c k at' buf =>
      apply writeBytes_of_disjoint
      unfold HierarchyOp.Covers at h
      omega

/-- After a write of its own the core sees the byte that memory has. -/
theorem seen_next_write (hinv : s.h.Inv used) {buf : List Byte}
    (hop : (HierarchyOp.write cluster core addr buf).WithinLine) (hused : used cluster core)
    (hlt : i < buf.length) (hi : i < 64) :
    (s.next (.write cluster core addr buf)).seen cluster core addr i =
      (s.next (.write cluster core addr buf)).mem (addr.toNat + i) := by
  refine (seen_next_self hinv hop hused hi).trans
    ((if_pos (show SameCacheLine addr addr from rfl)).trans ?_)
  refine Eq.trans (if_pos hlt) ?_
  rw [List.getD_eq_getElem _ _ hlt]
  exact (writeBytes_add hlt).symm

/-! ### Runs -/

def HierarchyRun.run (s : HierarchyRun) (ops : List HierarchyOp) : HierarchyRun :=
  ops.foldl HierarchyRun.next s

theorem HierarchyRun.run_append (s : HierarchyRun) (older newer : List HierarchyOp) :
    s.run (older ++ newer) = (s.run older).run newer := List.foldl_append

theorem inv_run (hinv : s.h.Inv used) {ops : List HierarchyOp} (hops : ∀ op ∈ ops, op.WithinLine) :
    (s.run ops).h.Inv used := by
  have hwithin : Throughout HierarchyRun.next (fun _ op => op.WithinLine) s ops :=
    throughout_of_forall hops
  exact hwithin.foldl (I := fun t => t.h.Inv used) hinv fun t op ht hop => inv_next ht hop

theorem seen_run_of_undisturbing (hinv : s.h.Inv used) (hi : i < 64) {ops : List HierarchyOp}
    (hops : ∀ op ∈ ops, op.WithinLine) (hkeep : ∀ op ∈ ops, op.Undisturbing cluster core addr i) :
    (s.run ops).seen cluster core addr i = s.seen cluster core addr i ∧
      (s.run ops).mem (addr.toNat + i) = s.mem (addr.toNat + i) := by
  induction ops generalizing s with
  | nil => exact ⟨rfl, rfl⟩
  | cons op ops ih =>
      obtain ⟨hcovers, hoverlays, hevicts⟩ := hkeep op List.mem_cons_self
      have hop := hops op List.mem_cons_self
      obtain ⟨hseen, hmem⟩ := ih (inv_next hinv hop)
        (fun op' h' => hops op' (List.mem_cons_of_mem op h'))
        (fun op' h' => hkeep op' (List.mem_cons_of_mem op h'))
      exact ⟨hseen.trans (seen_next_of_keeps hinv hop hi hoverlays hevicts),
        hmem.trans (mem_next_of_not_covers hcovers)⟩

theorem seen_run_eq_zero (hinv : s.h.Inv used) (hi : i < 64) {ops : List HierarchyOp}
    (hops : ∀ op ∈ ops, op.WithinLine) (hkeep : ∀ op ∈ ops, ¬ op.Overlays cluster core addr i)
    (hzero : s.seen cluster core addr i = 0) : (s.run ops).seen cluster core addr i = 0 := by
  induction ops generalizing s with
  | nil => exact hzero
  | cons op ops ih =>
      have hop := hops op List.mem_cons_self
      exact ih (inv_next hinv hop) (fun op' h' => hops op' (List.mem_cons_of_mem op h'))
        (fun op' h' => hkeep op' (List.mem_cons_of_mem op h'))
        (seen_next_eq_zero hinv hop hi (hkeep op List.mem_cons_self) hzero)

theorem mem_run_of_not_covers {ops : List HierarchyOp} {a : Nat} (h : ∀ op ∈ ops, ¬ op.Covers a) :
    (s.run ops).mem a = s.mem a := by
  induction ops generalizing s with
  | nil => rfl
  | cons op ops ih =>
      have hrest := ih (s := s.next op) fun op' h' => h op' (List.mem_cons_of_mem op h')
      exact hrest.trans (mem_next_of_not_covers (h op List.mem_cons_self))

/-- A core's own byte is the one that memory has. -/
theorem OwnByte.seen_eq (hinv : s.h.Inv used) (hfresh : ∀ c k a j, s.seen c k a j = 0)
    (hblank : ∀ a, s.mem a = 0) {before : List HierarchyOp}
    (hwithin : ∀ op ∈ before, op.WithinLine) (hi : i < 64)
    (h : OwnByte (used cluster core) before cluster core addr i) :
    (s.run before).seen cluster core addr i = (s.run before).mem (addr.toNat + i) := by
  obtain ⟨hused, older, buf, newer, rfl, hlt, hnewer⟩ | ⟨hcovers, hstale⟩ := h
  · have holderWithin : ∀ op ∈ older, op.WithinLine := fun op hop =>
      hwithin op (List.mem_append_left _ hop)
    have hwrite := hwithin (.write cluster core addr buf)
      (List.mem_append_right _ List.mem_cons_self)
    have holder := inv_run hinv holderWithin
    have hown := seen_next_write holder hwrite hused hlt hi
    obtain ⟨hseen, hmem⟩ := seen_run_of_undisturbing (inv_next holder hwrite) hi
      (fun op hop => hwithin op (List.mem_append_right _ (List.mem_cons_of_mem _ hop))) hnewer
    rw [HierarchyRun.run_append]
    exact hseen.trans (hown.trans hmem.symm)
  · rw [mem_run_of_not_covers hcovers, hblank]
    by_cases hused : used cluster core
    · obtain ⟨older, newer, rfl, holder, hnewer⟩ := hstale hused
      have holderWithin : ∀ op ∈ older, op.WithinLine := fun op hop =>
        hwithin op (List.mem_append_left _ hop)
      rw [HierarchyRun.run_append]
      refine seen_run_eq_zero (inv_run hinv holderWithin) hi
        (fun op hop => hwithin op (List.mem_append_right _ hop)) hnewer ?_
      obtain rfl | ⟨first, last, rfl, hevicts⟩ := holder
      · exact hfresh cluster core addr i
      · rw [HierarchyRun.run_append]
        exact seen_next_of_evicts
          (inv_run hinv fun op hop => holderWithin op (List.mem_append_left _ hop))
          (holderWithin last (List.mem_append_right _ (List.mem_singleton_self _))) hi hevicts
    · exact seen_of_unused (inv_run hinv hwithin) hused

end Byte

/-! ### From the initialisation on -/

theorem bradHierarchyInit_inv {h : BradCacheHierarchy} {numClusters coresPerCluster : Nat}
    (hinit : (bradHierarchyInit h numClusters coresPerCluster).1 = 0) :
    (bradHierarchyInit h numClusters coresPerCluster).2.Inv
        (fun c k => c < numClusters ∧ k < coresPerCluster) ∧
      ∀ c k a j,
        (HierarchyRun.start (bradHierarchyInit h numClusters coresPerCluster).2).seen c k a j =
          0 := by
  have hblank : ∀ {c : BradCache}, (∀ line, c.valid line = 0) → ∀ a j, c.seen a j = 0 := by
    intro c hc a j
    unfold BradCache.seen
    rw [if_neg fun hholds => hholds.1 (hc _)]
  unfold HierarchyRun.start HierarchyRun.seen
  revert hinit
  unfold bradHierarchyInit
  split_ifs
  · exact nofun
  · exact nofun
  · intro _
    refine ⟨⟨?_, ?_, ?_, ?_⟩, ?_⟩
    · intro c k hused
      dsimp only
      rw [if_pos hused]
      exact ⟨by decide, by decide, by decide, fun _ => rfl, fun _ _ _ _ => rfl⟩
    · intro c k hunused
      dsimp only
      rw [if_neg hunused]
      exact ⟨rfl, fun _ => rfl⟩
    · intro c
      dsimp only
      split_ifs
      · exact .inl ⟨⟨by decide, by decide, by decide, by decide⟩, fun _ _ _ => rfl⟩
      · exact .inr ⟨rfl, fun _ => rfl⟩
    · dsimp only
      exact ⟨⟨by decide, by decide, by decide, by decide⟩, fun _ _ _ => rfl⟩
    · intro c k a j
      apply hblank
      intro line
      dsimp only
      split_ifs <;> rfl

/-- **Reads through the hierarchy.** In every run in which each byte read is the reading core's own,
each read returns what was last written to its addresses, and zeros where nothing was. -/
theorem hierarchy_reads_written (h : BradCacheHierarchy) (numClusters coresPerCluster : Nat)
    (hinit : (bradHierarchyInit h numClusters coresPerCluster).1 = 0) (ops : List HierarchyOp)
    (hops : ∀ op ∈ ops, op.WithinLine)
    (hown : ∀ before c k addr size, before ++ [.read c k addr size] <+: ops → ∀ i < size,
      OwnByte (c < numClusters ∧ k < coresPerCluster) before c k addr i) :
    HierarchySafe (bradHierarchyInit h numClusters coresPerCluster).2 ops := by
  obtain ⟨hinv, hfresh⟩ := bradHierarchyInit_inv hinit
  apply throughout_of_before
  intro before op hbefore
  have hwithin : ∀ op ∈ before, op.WithinLine := by
    intro op' hop'
    exact hops op' (hbefore.subset (List.mem_append_left _ hop'))
  have hop : op.WithinLine :=
    hops op (hbefore.subset (List.mem_append_right _ (List.mem_singleton_self op)))
  cases op with
  | write c k addr buf => trivial
  | read c k addr size =>
      have hrun := inv_run (s := .start _) hinv hwithin
      refine (hrun.read c k addr hop.size_le).bytes.trans ?_
      apply List.map_congr_left
      intro i hi
      have hlt : i < size := List.mem_range.mp hi
      exact (hown before c k addr size hbefore i hlt).seen_eq hinv hfresh (fun _ => rfl) hwithin
        (hlt.trans_le hop.size_le)

/-- Two cores write and read back a word each, the first one a line of another set in between. -/
theorem ownWord_reads_written :
    HierarchySafe (bradHierarchyInit ⟨fun _ _ => .zero, fun _ _ => .zero, fun _ => .zero,
      .zero⟩ 1 2).2 [.write 0 0 0x1000 [0xEF, 0xBE, 0xAD, 0xDE], .write 0 1 0x2000 [1, 2, 3, 4],
        .write 0 0 0x1040 [5, 6, 7, 8], .read 0 1 0x2000 4, .read 0 0 0x1000 4] := by
  apply hierarchy_reads_written _ 1 2 rfl
  · simp [HierarchyOp.WithinLine, HierarchyOp.addr, HierarchyOp.size, HierarchyOp.cluster,
      HierarchyOp.core, bradMaxClusters, bradCoresPerCluster]
  · rintro before c k addr size ⟨rest, hrest⟩ i hi
    rcases before with _ | ⟨_, _ | ⟨_, _ | ⟨_, _ | ⟨_, _ | ⟨_, before⟩⟩⟩⟩⟩
    · simp at hrest
    · simp at hrest
    · simp at hrest
    · -- the word of the second core
      simp only [List.cons_append, List.nil_append, List.cons.injEq,
        HierarchyOp.read.injEq] at hrest
      obtain ⟨rfl, rfl, rfl, ⟨rfl, rfl, rfl, rfl⟩, _⟩ := hrest
      refine .inl ⟨⟨by decide, by decide⟩, [_], _, [_], rfl, hi, ?_⟩
      revert i
      decide
    · -- the word of the first core
      simp only [List.cons_append, List.nil_append, List.cons.injEq,
        HierarchyOp.read.injEq] at hrest
      obtain ⟨rfl, rfl, rfl, rfl, ⟨rfl, rfl, rfl, rfl⟩, _⟩ := hrest
      refine .inl ⟨⟨by decide, by decide⟩, [], _, [_, _, _], rfl, hi, ?_⟩
      revert i
      decide
    · simp at hrest

/-- A write and a read of another core: the read gets zeros. -/
theorem otherCore_not_safe :
    ¬ ∀ (h : BradCacheHierarchy) (numClusters coresPerCluster : Nat) (ops : List HierarchyOp),
      (bradHierarchyInit h numClusters coresPerCluster).1 = 0 → (∀ op ∈ ops, op.WithinLine) →
        HierarchySafe (bradHierarchyInit h numClusters coresPerCluster).2 ops := by
  intro h
  have hsafe := h ⟨fun _ _ => .zero, fun _ _ => .zero, fun _ => .zero, .zero⟩ 1 2
    [.write 0 0 0x1000 [0xEF], .read 0 1 0x1000 1] rfl
    (by simp [HierarchyOp.WithinLine, HierarchyOp.addr, HierarchyOp.size, HierarchyOp.cluster,
      HierarchyOp.core, bradMaxClusters, bradCoresPerCluster])
  have hread := hsafe.2.1
  revert hread
  unfold HierarchyRun.ReadsWritten
  decide

end BradVector
