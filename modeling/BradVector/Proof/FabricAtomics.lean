import BradVector.FabricTraffic
import Mathlib.Data.List.Permutation

/-!
# Interleaved atomics

Any number of clients call the fabric's atomics on one word, and their builtins interleave in any
way. An addition and an exchange are one builtin each. A compare-and-swap is one exchange where it
succeeds, and two where it does not: the first puts the desired value in place, the second takes it
out again, and in between it is there for the others to see and to build on.
-/

namespace BradVector

open CSem Txn

/-! ### A call that runs alone -/

/-- The word at `ref`. -/
def atomicValue (h : Heap) (ref : Ptr) : BitVec 64 :=
  BitVec.ofNat 64 (ofLE (readBytes (h.bytes ref.block) ref.off 8))

section Alone

variable {ε α : Type} {h : Heap} {ref : Ptr}

theorem atomicValue_poke (w : BitVec 64) : atomicValue (h.poke ref (toLE 8 w.toNat)) ref = w := by
  have hread := readBytes_writeBytes_self (h.bytes ref.block) ref.off (toLE 8 w.toNat)
  rw [toLE_length] at hread
  have hbytes : (h.poke ref (toLE 8 w.toNat)).bytes ref.block =
      writeBytes (h.bytes ref.block) ref.off (toLE 8 w.toNat) := Function.update_self _ _ _
  rw [atomicValue, hbytes, hread, ofLE_toLE_of_lt w.isLt, BitVec.ofNat_toNat, BitVec.setWidth_eq]

theorem transact_eq_ok (hin : ref.off + 8 ≤ h.size ref.block) (upd : BitVec 64 → BitVec 64) :
    (transact h ref upd : Outcome HeapFault ε _) =
      .ok (atomicValue h ref, h.poke ref (toLE 8 (upd (atomicValue h ref)).toNat)) := by
  unfold transact
  rw [Heap.read_eq_ok hin]
  simp only [Outcome.bind_eq_bind, Outcome.ok_bind]
  rw [Heap.write_eq_ok (by simpa using hin)]
  rfl

/-- **A call that runs alone.** On a word inside its block it does what its transactions do to the
value there, and changes no other byte. -/
theorem transactAll_run (t : Txn (BitVec 64) α) (hin : ref.off + 8 ≤ h.size ref.block) :
    ∃ h', (transactAll ref t h : Outcome HeapFault ε (α × Heap)) =
        .ok ((t.run (atomicValue h ref)).1, h') ∧
      atomicValue h' ref = (t.run (atomicValue h ref)).2 ∧ h'.size = h.size ∧
      ∀ b a, h'.bytes b a ≠ h.bytes b a → b = ref.block ∧ ref.off ≤ a ∧ a < ref.off + 8 := by
  induction t generalizing h with
  | done a => exact ⟨h, rfl, rfl, rfl, fun _ _ hne => absurd rfl hne⟩
  | step upd next ih =>
      set w := atomicValue h ref with hw
      set m := h.poke ref (toLE 8 (upd w).toNat) with hm
      have hvalue : atomicValue m ref = upd w := atomicValue_poke _
      obtain ⟨h', hrun, hword, hsize, hframe⟩ := ih w (h := m) hin
      rw [hvalue] at hrun hword
      refine ⟨h', ?_, hword, hsize, fun b a hne => ?_⟩
      · rw [transactAll, transact_eq_ok hin, Outcome.ok_bind]
        exact hrun
      · by_cases hb : h'.bytes b a = m.bytes b a
        · rw [hb] at hne
          simpa using Heap.poke_bytes_ne hne
        · exact hframe b a hb

end Alone

/-! ### Calls that interleave -/

variable {ι : Type} [DecidableEq ι]

abbrev AtomicConfig (ι : Type) := Config (BitVec 64) AtomicReply AtomicCall ι

/-- Any next step of any client. -/
def AtomicStep (c c' : AtomicConfig ι) : Prop := ∃ e, Step AtomicCall.prog c e c'

/-- The client's compare-and-swap has put its desired value in place and has not taken it out
again. -/
def SwappingBack (c : AtomicConfig ι) (i : ι) : Prop :=
  ∃ expected desired prev upd next,
    c.client i = .busy (.cas expected desired prev) true (.step upd next)

/-- A step that takes no transaction between the two exchanges of another client's
compare-and-swap. -/
def UncutStep (c c' : AtomicConfig ι) : Prop :=
  ∃ e, Step AtomicCall.prog c e c' ∧ ∀ i, e = .transact i → ∀ j, SwappingBack c j → j = i

/-- What is left of a call after its first transactions. -/
def AtomicCall.Leaves : AtomicCall → Txn (BitVec 64) AtomicReply → Prop
  | .cas .., _ => True
  | _, rest => ∃ a, rest = .done a

theorem AtomicCall.leaves_of_prog {call : AtomicCall} {upd next} (w : BitVec 64)
    (h : call.prog = .step upd next) : call.Leaves (next w) := by
  cases call with
  | add val =>
      cases h
      exact ⟨_, rfl⟩
  | cas => trivial
  | exch val prev =>
      cases prev <;> cases h <;> exact ⟨_, rfl⟩

/-- A call that has begun has left what it can leave, and one that has not is whole. -/
def WellBegun (c : AtomicConfig ι) : Prop :=
  ∀ i call begun rest, c.client i = .busy call begun rest →
    if begun then call.Leaves rest else rest = call.prog

theorem WellBegun.step {c c' : AtomicConfig ι} (h : WellBegun c) (hstep : AtomicStep c c') :
    WellBegun c' := by
  obtain ⟨e, hstep⟩ := hstep
  intro j call' begun' rest' hj
  cases hstep with
  | call hidle =>
      rcases Config.put_client_iff.mp hj with ⟨-, hx⟩ | ⟨-, hj⟩
      · cases hx
        rfl
      · exact h j call' begun' rest' hj
  | @transact i k begun upd next hi =>
      rcases Config.put_client_iff.mp hj with ⟨-, hx⟩ | ⟨-, hj⟩
      · cases hx
        have hk := h i _ _ _ hi
        cases begun with
        | false => exact AtomicCall.leaves_of_prog _ hk.symm
        | true =>
            cases call' with
            | cas => trivial
            | add => exact absurd hk (by rintro ⟨a, ha⟩; cases ha)
            | exch => exact absurd hk (by rintro ⟨a, ha⟩; cases ha)
      · exact h j call' begun' rest' hj
  | ret hi =>
      rcases Config.put_client_iff.mp hj with ⟨-, hx⟩ | ⟨-, hj⟩
      · cases hx
      · exact h j call' begun' rest' hj

omit [DecidableEq ι] in
theorem WellBegun.swappingBack {c : AtomicConfig ι} {i : ι} (h : WellBegun c) (hi : c.Midway i) :
    SwappingBack c i := by
  obtain ⟨call, upd, next, hi⟩ := hi
  have hleaves := h i _ _ _ hi
  cases call with
  | cas expected desired prev => exact ⟨expected, desired, prev, upd, next, hi⟩
  | add => exact absurd hleaves (by rintro ⟨a, ha⟩; cases ha)
  | exch => exact absurd hleaves (by rintro ⟨a, ha⟩; cases ha)

/-- **Uncut calls are atomic.** For any number of clients, as long as nobody takes a transaction
between the two exchanges of another client's failing compare-and-swap, the results of the calls
that have returned and the final word are those of one sequential order of the calls. -/
theorem atomics_linearizable {w : BitVec 64} {c : AtomicConfig ι}
    (hrun : Relation.ReflTransGen UncutStep (Config.start w) c) (hquiet : c.Quiet) :
    Linearizable AtomicCall.prog w c := by
  refine linearizable_of_undisturbed ?_ hquiet
  clear hquiet
  have hboth : WellBegun c ∧ Relation.ReflTransGen (Next AtomicCall.prog) (Config.start w) c := by
    induction hrun with
    | refl => exact ⟨fun i _ _ _ hi => (by cases hi), .refl⟩
    | tail _ huncut ih =>
        obtain ⟨hbegun, hpath⟩ := ih
        obtain ⟨e, hstep, hcut⟩ := huncut
        refine ⟨hbegun.step ⟨e, hstep⟩, hpath.tail ⟨e, hstep, ?_⟩⟩
        cases e with
        | transact i => exact fun j hj => hcut i rfl j (hbegun.swappingBack hj)
        | call => trivial
        | ret => trivial
  exact hboth.2

/-- A compare-and-swap that fails on a word and an addition to it that comes after its two
exchanges. -/
theorem atomics_linearizable_swap_then_add : ∃ c : AtomicConfig Bool,
    c.cell = 1 ∧ c.returned = [(.cas 5 7 false, ⟨1, none⟩), (.add 1, ⟨0, none⟩)] ∧
      Linearizable AtomicCall.prog 0 c := by
  have hrun : ∃ c : AtomicConfig Bool,
      Relation.ReflTransGen UncutStep (Config.start 0) c ∧ c.Quiet ∧ c.cell = 1 ∧
        c.returned = [(.cas 5 7 false, ⟨1, none⟩), (.add 1, ⟨0, none⟩)] := by
    refine exists_run_head ⟨_, .call (i := false) (k := .cas 5 7 false) rfl, nofun⟩ ?_
    refine exists_run_head ⟨_, .call (i := true) (k := .add 1) rfl, nofun⟩ ?_
    refine exists_run_head ⟨_, .transact (i := false) rfl, ?_⟩ ?_
    · rintro i ⟨⟩ j ⟨_, _, _, _, _, hj⟩
      cases j
      · rfl
      · cases hj
    refine exists_run_head ⟨_, .transact (i := false) rfl, ?_⟩ ?_
    · rintro i ⟨⟩ j ⟨_, _, _, _, _, hj⟩
      cases j
      · rfl
      · cases hj
    refine exists_run_head ⟨_, .ret (i := false) rfl, nofun⟩ ?_
    refine exists_run_head ⟨_, .transact (i := true) rfl, ?_⟩ ?_
    · rintro i ⟨⟩ j ⟨_, _, _, _, _, hj⟩
      cases j
      · cases hj
      · rfl
    refine exists_run_head ⟨_, .ret (i := true) rfl, nofun⟩ ⟨_, .refl, ?_, rfl, rfl⟩
    intro i
    cases i <;> rfl
  obtain ⟨c, hrun, hquiet, hcell, hreturned⟩ := hrun
  exact ⟨c, hcell, hreturned, atomics_linearizable hrun hquiet⟩

/-- An addition between the two exchanges of a failing compare-and-swap is lost: the word is 0 at
the end, and no order of the two calls leaves 0. -/
theorem cut_swap_loses_addition :
    ¬ ∀ c : AtomicConfig Bool, Relation.ReflTransGen AtomicStep (Config.start 0) c → c.Quiet →
      Linearizable AtomicCall.prog 0 c := by
  intro hall
  have hrun : ∃ c : AtomicConfig Bool,
      Relation.ReflTransGen AtomicStep (Config.start 0) c ∧ c.Quiet ∧ c.cell = 0 ∧
        c.returned = [(.cas 5 7 false, ⟨1, none⟩), (.add 1, ⟨0, none⟩)] := by
    refine exists_run_head ⟨_, .call (i := false) (k := .cas 5 7 false) rfl⟩ ?_
    refine exists_run_head ⟨_, .call (i := true) (k := .add 1) rfl⟩ ?_
    refine exists_run_head ⟨_, .transact (i := false) rfl⟩ ?_
    refine exists_run_head ⟨_, .transact (i := true) rfl⟩ ?_
    refine exists_run_head ⟨_, .transact (i := false) rfl⟩ ?_
    refine exists_run_head ⟨_, .ret (i := false) rfl⟩ ?_
    refine exists_run_head ⟨_, .ret (i := true) rfl⟩ ⟨_, .refl, ?_, rfl, rfl⟩
    intro i
    cases i <;> rfl
  obtain ⟨c, hrun, hquiet, hcell, hreturned⟩ := hrun
  obtain ⟨order, hperm, hreplays⟩ := hall c hrun hquiet
  rw [hreturned] at hperm
  rw [hcell] at hreplays
  have hleft : ∀ order ∈ [((.cas 5 7 false : AtomicCall), (⟨1, none⟩ : AtomicReply)),
      (.add 1, ⟨0, none⟩)].permutations',
      0 ≠ order.foldl (fun s x => (x.1.prog.run s).2) (0 : BitVec 64) := by
    decide
  exact hleft order (List.mem_permutations'.mpr hperm) hreplays.cell_eq

end BradVector
