import BradVector.Eroe
import BradVector.Library.Commands
import Mathlib.Algebra.BigOperators.Fin
import Mathlib.Algebra.Order.Ring.Star
import Mathlib.Data.Fintype.BigOperators
import Mathlib.Data.Rat.Star
import Mathlib.Order.Interval.Set.Defs
import Mathlib.Tactic.Linarith

/-!
# Declared workloads

The governor counts its workloads when one becomes active, not when one stops, and it keeps the
first 31 bytes of a name but looks for all of it. A load of zero for an active workload leaves the
count too high, and a longer name is never found again.
-/

namespace BradVector

open CSem

/-! ### Sessions -/

/-- A call, with a load factor in the range. -/
inductive EroeCall where
  | declareWorkload (name : List Byte) (unit : Word) (load : Set.Icc (0 : ℚ) 1)
  | setProfile (profile : Word)
  | setCustomProfile (cfg : Option EroePowerBudget)

/-- The slot that a declaration of the name takes. -/
def Eroe.slotFor (e : Eroe) (name : List Byte) : Option (Fin eroeMaxWorkloads) :=
  findWorkloadSlot e.workloads name (List.finRange eroeMaxWorkloads) none

/-- The governor, and the names that its slots were last declared with. -/
structure EroeSession where
  eroe : Eroe
  declared : Fin eroeMaxWorkloads → List Byte

def EroeSession.start : EroeSession := ⟨eroeInit, fun _ => []⟩

def EroeSession.next (s : EroeSession) : EroeCall → EroeSession
  | .declareWorkload name unit load =>
      { eroe := (eroeDeclareWorkload s.eroe (some name) unit load).2
        declared :=
          match s.eroe.slotFor name with
          | some k => Function.update s.declared k name
          | none => s.declared }
  | .setProfile profile => { s with eroe := (eroeSetProfile s.eroe profile).2 }
  | .setCustomProfile cfg => { s with eroe := (eroeSetCustomProfile s.eroe cfg).2 }

/-- The count is that of the active entries, and their names differ. -/
structure Eroe.Sound (e : Eroe) : Prop where
  counted : e.numWorkloads = countActive e.workloads
  distinct : ∀ i j, (e.workloads i).active = true → (e.workloads j).active = true →
    (e.workloads i).name = (e.workloads j).name → i = j

/-- A declaration with the name of an active workload writes its slot and no other. -/
def EroeSession.UpdatesActive (s : EroeSession) : EroeCall → Prop
  | .declareWorkload name unit load =>
      ∀ k, (s.eroe.workloads k).active = true → s.declared k = name →
        (eroeDeclareWorkload s.eroe (some name) unit load).1 = 0 ∧
          (eroeDeclareWorkload s.eroe (some name) unit load).2.workloads =
            Function.update s.eroe.workloads k (.declared name unit load)
  | _ => True

/-- What is expected of a call. -/
def EroeSession.Keeps (s : EroeSession) (call : EroeCall) : Prop :=
  (s.next call).eroe.Sound ∧ s.UpdatesActive call

/-- A declaration that does not stop a workload, and whose name, if it is cut off, is neither that
of an active workload nor, where it would be stored, cut to the name of one. -/
def EroeCall.Plain (s : EroeSession) : EroeCall → Prop
  | .declareWorkload name _ load =>
      (load.val = 0 → ∀ k, (s.eroe.workloads k).active = true → (s.eroe.workloads k).name ≠ name) ∧
        (31 < name.length →
          (∀ k, (s.eroe.workloads k).active = true → s.declared k ≠ name) ∧
            (0 < load.val → (∃ k, (s.eroe.workloads k).active = false) →
              ∀ k, (s.eroe.workloads k).active = true → (s.eroe.workloads k).name ≠ name.take 31))
  | _ => True

/-! ### The slot -/

section Slot

variable {ws : Fin eroeMaxWorkloads → WorkloadEntry} {name : List Byte} {k : Fin eroeMaxWorkloads}
  {is : List (Fin eroeMaxWorkloads)} {slot : Option (Fin eroeMaxWorkloads)}

/-- The search with a free slot in hand. -/
theorem findWorkloadSlot_eq_some (h : findWorkloadSlot ws name is slot = some k) :
    ((ws k).active = true ∧ (ws k).name = name) ∨
      (slot = some k ∨ (ws k).active = false) ∧ ∀ i ∈ is, (ws i).active = true →
      (ws i).name ≠ name := by
  induction is generalizing slot with
  | nil => exact .inr ⟨.inl h, nofun⟩
  | cons i is ih =>
      rw [findWorkloadSlot] at h
      by_cases hmatch : (ws i).active && (ws i).name = name
      · rw [if_pos hmatch] at h
        obtain rfl := Option.some.inj h
        simp only [Bool.and_eq_true, decide_eq_true_eq] at hmatch
        exact .inl hmatch
      · rw [if_neg hmatch] at h
        simp only [Bool.and_eq_true, decide_eq_true_eq, not_and] at hmatch
        rcases ih h with hfound | ⟨hslot, hrest⟩
        · exact .inl hfound
        · refine .inr ⟨?_, List.forall_mem_cons.mpr ⟨hmatch, hrest⟩⟩
          rcases hslot with hslot | hfree
          · split_ifs at hslot with htakes
            · obtain rfl := Option.some.inj hslot
              exact .inr (Bool.not_eq_true _ ▸ htakes.1)
            · exact .inl hslot
          · exact .inr hfree

theorem findWorkloadSlot_eq_none (h : findWorkloadSlot ws name is slot = none) :
    slot = none ∧ ∀ i ∈ is, (ws i).active = true ∧ (ws i).name ≠ name := by
  induction is generalizing slot with
  | nil => exact ⟨h, nofun⟩
  | cons i is ih =>
      rw [findWorkloadSlot] at h
      by_cases hmatch : (ws i).active && (ws i).name = name
      · rw [if_pos hmatch] at h
        cases h
      · rw [if_neg hmatch] at h
        simp only [Bool.and_eq_true, decide_eq_true_eq, not_and] at hmatch
        obtain ⟨hslot, hrest⟩ := ih h
        split_ifs at hslot with htakes
        have hactive : (ws i).active = true := by
          by_contra hfree
          exact htakes ⟨hfree, hslot⟩
        exact ⟨hslot, List.forall_mem_cons.mpr ⟨⟨hactive, hmatch hactive⟩, hrest⟩⟩

variable {e : Eroe}

/-- The slot is that of the workload with the name, or a free one. -/
theorem slotFor_eq_some (h : e.slotFor name = some k) :
    ((e.workloads k).active = true ∧ (e.workloads k).name = name) ∨
      (e.workloads k).active = false ∧
        ∀ i, (e.workloads i).active = true → (e.workloads i).name ≠ name := by
  rcases findWorkloadSlot_eq_some h with hfound | ⟨hfree, hrest⟩
  · exact .inl hfound
  · exact .inr ⟨hfree.resolve_left nofun, fun i => hrest i (List.mem_finRange i)⟩

theorem slotFor_eq_none (h : e.slotFor name = none) (i : Fin eroeMaxWorkloads) :
    (e.workloads i).active = true ∧ (e.workloads i).name ≠ name :=
  (findWorkloadSlot_eq_none h).2 i (List.mem_finRange i)

end Slot

/-! ### The count -/

theorem countP_eq_sum {α : Type} (p : α → Bool) (l : List α) :
    l.countP p = (l.map fun a => (p a).toNat).sum := by
  induction l with
  | nil => rfl
  | cons a l ih => rw [List.countP_cons, List.map_cons, List.sum_cons, ih,
    Nat.add_comm]; cases p a <;> rfl

theorem countActive_eq_sum (ws : Fin eroeMaxWorkloads → WorkloadEntry) :
    countActive ws = ∑ i, (ws i).active.toNat := by
  rw [countActive, countP_eq_sum, Fin.sum_univ_def]

theorem countActive_update (ws : Fin eroeMaxWorkloads → WorkloadEntry) (k : Fin eroeMaxWorkloads)
    (w : WorkloadEntry) :
    countActive (Function.update ws k w) + (ws k).active.toNat =
      countActive ws + w.active.toNat := by
  have hupdate : (fun i => (Function.update ws k w i).active.toNat) =
      Function.update (fun i => (ws i).active.toNat) k w.active.toNat := by
    funext i
    by_cases hi : i = k
    · rw [hi, Function.update_self, Function.update_self]
    · rw [Function.update_of_ne hi, Function.update_of_ne hi]
  have hsplit := Finset.sum_erase_add Finset.univ (fun i => (ws i).active.toNat) (Finset.mem_univ k)
  rw [countActive_eq_sum, countActive_eq_sum, hupdate, Finset.sum_update_of_mem (Finset.mem_univ k),
    Finset.sdiff_singleton_eq_erase, ← hsplit]
  omega

/-! ### Declarations -/

/-- What holds of a session apart from what is expected of it: the names stored are those declared,
cut to 31 bytes. -/
structure EroeSession.Tracks (s : EroeSession) : Prop where
  initialized : s.eroe.initialized = true
  stored : ∀ k, (s.eroe.workloads k).active = true → (s.eroe.workloads k).name =
    (s.declared k).take 31

section Declare

variable {e : Eroe} {name : List Byte} {unit : Word} {load : Set.Icc (0 : ℚ) 1}
  {k : Fin eroeMaxWorkloads}

theorem eroeDeclareWorkload_of_none (hinit : e.initialized = true) (h : e.slotFor name = none) :
    eroeDeclareWorkload e (some name) unit load = (-enospc, e) := by
  obtain ⟨hlow, hhigh⟩ := load.property
  have hrange : ¬ (load.val < 0 ∨ 1 < load.val) := by
    rintro (hneg | hover)
    · linarith
    · linarith
  rw [Eroe.slotFor] at h
  rw [eroeDeclareWorkload, if_neg (not_not_intro hinit)]
  dsimp only
  rw [if_neg hrange, h]

theorem eroeDeclareWorkload_of_some (hinit : e.initialized = true) (h : e.slotFor name = some k) :
    eroeDeclareWorkload e (some name) unit load =
      (0, { e with
        workloads := Function.update e.workloads k (.declared name unit load)
        numWorkloads :=
          if 0 < load.val then countActive
            (Function.update e.workloads k (.declared name unit load))
          else e.numWorkloads }) := by
  obtain ⟨hlow, hhigh⟩ := load.property
  have hrange : ¬ (load.val < 0 ∨ 1 < load.val) := by
    rintro (hneg | hover)
    · linarith
    · linarith
  rw [Eroe.slotFor] at h
  rw [eroeDeclareWorkload, if_neg (not_not_intro hinit)]
  dsimp only
  rw [if_neg hrange, h]
  by_cases hpos : 0 < load.val
  · simp only [WorkloadEntry.declared, hpos, decide_true, if_true]
  · simp only [WorkloadEntry.declared, hpos, decide_false, if_false, Bool.false_eq_true]

theorem declared_active : (WorkloadEntry.declared name unit load).active = true ↔ 0 < load.val := by
  simp [WorkloadEntry.declared]

/-- The count is right afterwards unless an active workload has been stopped. -/
theorem counted_iff (hcounted : e.numWorkloads = countActive e.workloads) :
    (if 0 < load.val then countActive (Function.update e.workloads k (.declared name unit load))
      else e.numWorkloads) = countActive
        (Function.update e.workloads k (.declared name unit load)) ↔
      (load.val = 0 → (e.workloads k).active = false) := by
  have hupdate := countActive_update e.workloads k (.declared name unit load)
  rcases load.property.1.lt_or_eq with hpos | hzero
  · rw [if_pos hpos]
    exact iff_of_true rfl fun h => absurd h hpos.ne'
  · have hidle : (WorkloadEntry.declared name unit load).active = false := by
      rw [← Bool.not_eq_true, declared_active]
      exact hzero.not_lt
    rw [if_neg hzero.not_lt, hcounted]
    rw [hidle] at hupdate
    cases hactive : (e.workloads k).active with
    | false =>
        rw [hactive] at hupdate
        exact iff_of_true hupdate.symm fun _ => rfl
    | true =>
        rw [hactive] at hupdate
        refine iff_of_false (fun h => ?_) fun h => Bool.noConfusion (h hzero.symm)
        rw [h] at hupdate
        exact absurd hupdate (Nat.succ_ne_self _)

/-- The names differ afterwards unless another active workload has the name that is stored. -/
theorem distinct_iff
    (hdistinct : ∀ i j, (e.workloads i).active = true → (e.workloads j).active = true →
      (e.workloads i).name = (e.workloads j).name → i = j) :
    (∀ i j, (Function.update e.workloads k (.declared name unit load) i).active = true →
      (Function.update e.workloads k (.declared name unit load) j).active = true →
        (Function.update e.workloads k (.declared name unit load) i).name =
          (Function.update e.workloads k (.declared name unit load) j).name → i = j) ↔
      (0 < load.val → ∀ i, i ≠ k → (e.workloads i).active = true →
        (e.workloads i).name ≠ name.take 31) := by
  constructor
  · intro h hpos i hi hactive hname
    apply hi
    apply h i k
    · rwa [Function.update_of_ne hi]
    · rw [Function.update_self]
      exact declared_active.mpr hpos
    · rwa [Function.update_of_ne hi, Function.update_self]
  · intro h i j hi hj hname
    by_cases hik : i = k <;> by_cases hjk : j = k
    · rw [hik, hjk]
    · subst hik
      rw [Function.update_self] at hi hname
      rw [Function.update_of_ne hjk] at hj hname
      exact absurd hname.symm (h (declared_active.mp hi) j hjk hj)
    · subst hjk
      rw [Function.update_self] at hj hname
      rw [Function.update_of_ne hik] at hi hname
      exact absurd hname (h (declared_active.mp hj) i hik hi)
    · rw [Function.update_of_ne hik] at hi hname
      rw [Function.update_of_ne hjk] at hj hname
      exact hdistinct i j hi hj hname

theorem sound_declare_iff (hinit : e.initialized = true) (hsound : e.Sound)
    (h : e.slotFor name = some k) :
    (eroeDeclareWorkload e (some name) unit load).2.Sound ↔
      (load.val = 0 → (e.workloads k).active = false) ∧
        (0 < load.val → ∀ i, i ≠ k → (e.workloads i).active = true →
          (e.workloads i).name ≠ name.take 31) := by
  rw [eroeDeclareWorkload_of_some hinit h, ← counted_iff hsound.counted,
    ← distinct_iff hsound.distinct]
  exact ⟨fun h => ⟨h.counted, h.distinct⟩, fun h => ⟨h.1, h.2⟩⟩

end Declare

section Calls

variable {s : EroeSession} {name : List Byte} {unit : Word} {load : Set.Icc (0 : ℚ) 1}
  {k : Fin eroeMaxWorkloads}

/-- A declaration updates the workload it names exactly if it takes the slot of that one. -/
theorem updatesActive_iff (htracks : s.Tracks) (hsound : s.eroe.Sound)
    (h : s.eroe.slotFor name = some k) :
    s.UpdatesActive (.declareWorkload name unit load) ↔
      ∀ j, (s.eroe.workloads j).active = true → s.declared j = name → j = k := by
  rw [EroeSession.UpdatesActive, eroeDeclareWorkload_of_some htracks.initialized h]
  apply forall_congr'
  intro j
  apply imp_congr_right
  intro hactive
  apply imp_congr_right
  intro _
  constructor
  · rintro ⟨-, hupdate⟩
    by_contra hne
    have hupdate : Function.update s.eroe.workloads k (.declared name unit load) =
        Function.update s.eroe.workloads j (.declared name unit load) := hupdate
    have hj := congrFun hupdate j
    have hk := congrFun hupdate k
    rw [Function.update_of_ne hne, Function.update_self] at hj
    rw [Function.update_self, Function.update_of_ne (Ne.symm hne)] at hk
    have hsame : s.eroe.workloads j = s.eroe.workloads k := hj.trans hk
    exact hne (hsound.distinct j k hactive (hsame ▸ hactive) (congrArg WorkloadEntry.name hsame))
  · rintro rfl
    exact ⟨rfl, rfl⟩

/-- The name of an active workload is one that it was declared with, unless that was cut. -/
theorem stored_of_declared (htracks : s.Tracks) {j : Fin eroeMaxWorkloads}
    (hactive : (s.eroe.workloads j).active = true) (hdeclared : s.declared j = name) :
    (s.eroe.workloads j).name = name.take 31 := by
  rw [htracks.stored j hactive, hdeclared]

theorem keeps_declare_of_found (htracks : s.Tracks) (hsound : s.eroe.Sound)
    (h : s.eroe.slotFor name = some k) (hactive : (s.eroe.workloads k).active = true)
    (hname : (s.eroe.workloads k).name = name) :
    s.Keeps (.declareWorkload name unit load) ↔
      EroeCall.Plain s (.declareWorkload name unit load) := by
  have hshort : name.length ≤ 31 := by
    rw [← hname, htracks.stored k hactive, List.length_take]
    exact Nat.min_le_left 31 _
  have hwhole : name.take 31 = name := List.take_of_length_le hshort
  have hown : ∀ i, i ≠ k → (s.eroe.workloads i).active = true →
      (s.eroe.workloads i).name ≠ name.take 31 := by
    intro i hi hiactive hiname
    apply hi
    exact hsound.distinct i k hiactive hactive (by rw [hiname, hwhole, hname])
  have hupdates : s.UpdatesActive (.declareWorkload name unit load) := by
    apply (updatesActive_iff htracks hsound h).mpr
    intro j hjactive hdeclared
    by_contra hj
    exact hown j hj hjactive (stored_of_declared htracks hjactive hdeclared)
  have hkeeps : s.Keeps (.declareWorkload name unit load) ↔ load.val ≠ 0 := by
    refine (and_iff_left hupdates).trans ((sound_declare_iff htracks.initialized hsound h).trans ?_)
    rw [hactive]
    exact ⟨fun hcond hzero => Bool.noConfusion (hcond.1 hzero), fun hne =>
      ⟨fun hzero => absurd hzero hne, fun _ => hown⟩⟩
  rw [hkeeps]
  constructor
  · intro hne
    exact ⟨fun hzero => absurd hzero hne, fun hlong => absurd hlong (Nat.not_lt.mpr hshort)⟩
  · intro hplain hzero
    exact hplain.1 hzero k hactive hname

theorem keeps_declare_of_free (htracks : s.Tracks) (hsound : s.eroe.Sound)
    (h : s.eroe.slotFor name = some k) (hfree : (s.eroe.workloads k).active = false)
    (hnone : ∀ i, (s.eroe.workloads i).active = true → (s.eroe.workloads i).name ≠ name) :
    s.Keeps (.declareWorkload name unit load) ↔
      EroeCall.Plain s (.declareWorkload name unit load) := by
  have hother : ∀ i, (s.eroe.workloads i).active = true → i ≠ k := by
    rintro i hactive rfl
    rw [hfree] at hactive
    cases hactive
  have hkeeps : s.Keeps (.declareWorkload name unit load) ↔
      (0 < load.val → ∀ i, (s.eroe.workloads i).active = true →
        (s.eroe.workloads i).name ≠ name.take 31) ∧
      ∀ j, (s.eroe.workloads j).active = true → s.declared j ≠ name := by
    refine and_congr ((sound_declare_iff htracks.initialized hsound h).trans ?_)
      ((updatesActive_iff htracks hsound h).trans ?_)
    · rw [hfree]
      exact ⟨fun hcond hpos i hactive => hcond.2 hpos i (hother i hactive) hactive, fun hcond =>
        ⟨fun _ => rfl, fun hpos i _ hactive => hcond hpos i hactive⟩⟩
    · exact ⟨fun hcond j hactive hdeclared => hother j hactive (hcond j hactive hdeclared),
        fun hcond j hactive hdeclared => absurd hdeclared (hcond j hactive)⟩
  rw [hkeeps]
  constructor
  · rintro ⟨hstored, hdeclared⟩
    exact ⟨fun _ => hnone, fun _ => ⟨hdeclared, fun hpos _ => hstored hpos⟩⟩
  · rintro ⟨-, hlong⟩
    rcases Nat.lt_or_ge 31 name.length with hlen | hlen
    · exact ⟨fun hpos => (hlong hlen).2 hpos ⟨k, hfree⟩, (hlong hlen).1⟩
    · have hwhole : name.take 31 = name := List.take_of_length_le hlen
      rw [hwhole]
      refine ⟨fun _ => hnone, fun j hactive hdeclared => ?_⟩
      have hstored := stored_of_declared htracks hactive hdeclared
      rw [hwhole] at hstored
      exact hnone j hactive hstored

theorem keeps_declare_of_full (htracks : s.Tracks) (hsound : s.eroe.Sound)
    (h : s.eroe.slotFor name = none) :
    s.Keeps (.declareWorkload name unit load) ↔
      EroeCall.Plain s (.declareWorkload name unit load) := by
  have hall := slotFor_eq_none h
  have hsame : eroeDeclareWorkload s.eroe (some name) unit load = (-enospc, s.eroe) :=
    eroeDeclareWorkload_of_none htracks.initialized h
  have hkeeps : s.Keeps (.declareWorkload name unit load) ↔ ∀ j, s.declared j ≠ name := by
    rw [EroeSession.Keeps, EroeSession.next, EroeSession.UpdatesActive, hsame]
    refine (and_iff_right hsound).trans ⟨fun hcond j hdeclared => ?_, fun hcond j _ hdeclared => ?_⟩
    · exact absurd (hcond j (hall j).1 hdeclared).1 (by decide : ¬ (-enospc : Int) = 0)
    · exact absurd hdeclared (hcond j)
  rw [hkeeps]
  constructor
  · intro hdeclared
    refine ⟨fun _ i _ => (hall i).2, fun _ => ⟨fun j _ => hdeclared j, fun _ hfree => ?_⟩⟩
    obtain ⟨k, hfree⟩ := hfree
    rw [(hall k).1] at hfree
    cases hfree
  · rintro ⟨-, hlong⟩ j hdeclared
    have hstored := stored_of_declared htracks (hall j).1 hdeclared
    rcases Nat.lt_or_ge 31 name.length with hlen | hlen
    · exact (hlong hlen).1 j (hall j).1 hdeclared
    · rw [List.take_of_length_le hlen] at hstored
      exact (hall j).2 hstored

theorem keeps_declare_iff (htracks : s.Tracks) (hsound : s.eroe.Sound) :
    s.Keeps (.declareWorkload name unit load) ↔
      EroeCall.Plain s (.declareWorkload name unit load) := by
  cases h : s.eroe.slotFor name with
  | none => exact keeps_declare_of_full htracks hsound h
  | some k =>
      rcases slotFor_eq_some h with ⟨hactive, hname⟩ | ⟨hfree, hnone⟩
      · exact keeps_declare_of_found htracks hsound h hactive hname
      · exact keeps_declare_of_free htracks hsound h hfree hnone

/-- A profile leaves no workload behind. -/
theorem sound_of_cleared {e : Eroe} (hzero : ∀ k, e.workloads k = .zero)
    (hcount : e.numWorkloads = 0) :
    e.Sound where
  counted := by
    have hidle : ∀ i, (e.workloads i).active = false := by
      intro i
      rw [hzero i]
      rfl
    rw [hcount, countActive_eq_sum]
    simp only [hidle, Bool.toNat_false, Finset.sum_const_zero]
  distinct i _ hi := by
    rw [hzero i] at hi
    cases hi

/-- What a profile does: nothing, or a reset. -/
theorem setProfile_cases (e : Eroe) (profile : Word) :
    (eroeSetProfile e profile).2 = e ∨
      (∀ k, (eroeSetProfile e profile).2.workloads k = .zero) ∧
        (eroeSetProfile e profile).2.numWorkloads = 0 ∧
        (eroeSetProfile e profile).2.initialized = e.initialized := by
  rw [eroeSetProfile]
  by_cases hinit : ¬ e.initialized
  · exact .inl (by rw [if_pos hinit])
  · rw [if_neg hinit]
    by_cases hrange : eroeProfileCustom < profile
    · exact .inl (by rw [if_pos hrange])
    · rw [if_neg hrange]
      exact .inr ⟨fun _ => rfl, rfl, rfl⟩

theorem setCustomProfile_cases (e : Eroe) (cfg : Option EroePowerBudget) :
    (eroeSetCustomProfile e cfg).2 = e ∨
      (∀ k, (eroeSetCustomProfile e cfg).2.workloads k = .zero) ∧
        (eroeSetCustomProfile e cfg).2.numWorkloads = 0 ∧
        (eroeSetCustomProfile e cfg).2.initialized = e.initialized := by
  by_cases hinit : ¬ e.initialized
  · exact .inl (by rw [eroeSetCustomProfile.eq_def, if_pos hinit])
  · rw [eroeSetCustomProfile.eq_def, if_neg hinit]
    cases cfg with
    | none => exact .inl rfl
    | some budget => exact .inr ⟨fun _ => rfl, rfl, rfl⟩

theorem sound_of_profile (hsound : s.eroe.Sound) {e : Eroe}
    (h : e = s.eroe ∨
      (∀ k, e.workloads k = .zero) ∧ e.numWorkloads = 0 ∧ e.initialized = s.eroe.initialized) :
        e.Sound := by
  rcases h with rfl | ⟨hzero, hcount, -⟩
  · exact hsound
  · exact sound_of_cleared hzero hcount

theorem keeps_iff_plain (htracks : s.Tracks) (hsound : s.eroe.Sound) (call : EroeCall) :
    s.Keeps call ↔ call.Plain s := by
  cases call with
  | declareWorkload name unit load => exact keeps_declare_iff htracks hsound
  | setProfile profile =>
      refine iff_of_true ⟨?_, trivial⟩ trivial
      exact sound_of_profile hsound (setProfile_cases s.eroe profile)
  | setCustomProfile cfg =>
      refine iff_of_true ⟨?_, trivial⟩ trivial
      exact sound_of_profile hsound (setCustomProfile_cases s.eroe cfg)

end Calls

/-! ### Runs -/

namespace EroeSession.Tracks

variable {s : EroeSession}

theorem start : EroeSession.start.Tracks := ⟨rfl, nofun⟩

theorem declare (h : s.Tracks) (name : List Byte) (unit : Word) (load : Set.Icc (0 : ℚ) 1) :
    (s.next (.declareWorkload name unit load)).Tracks := by
  cases hslot : s.eroe.slotFor name with
  | none =>
      rw [EroeSession.next, eroeDeclareWorkload_of_none h.initialized hslot, hslot]
      exact ⟨h.initialized, h.stored⟩
  | some k =>
      rw [EroeSession.next, eroeDeclareWorkload_of_some h.initialized hslot, hslot]
      refine ⟨h.initialized, fun i hactive => ?_⟩
      dsimp only at hactive ⊢
      by_cases hi : i = k
      · rw [hi, Function.update_self, Function.update_self]
        rfl
      · rw [Function.update_of_ne hi] at hactive ⊢
        rw [Function.update_of_ne hi]
        exact h.stored i hactive

theorem profile (h : s.Tracks) {e : Eroe}
    (hcase : e = s.eroe ∨
      (∀ k, e.workloads k = .zero) ∧ e.numWorkloads = 0 ∧ e.initialized = s.eroe.initialized) :
    EroeSession.Tracks { s with eroe := e } := by
  rcases hcase with rfl | ⟨hzero, -, hinit⟩
  · exact h
  · refine ⟨hinit.trans h.initialized, fun k hactive => ?_⟩
    dsimp only at hactive
    rw [hzero k] at hactive
    cases hactive

theorem next (h : s.Tracks) (call : EroeCall) : (s.next call).Tracks := by
  cases call with
  | declareWorkload name unit load => exact h.declare name unit load
  | setProfile profile => exact h.profile (setProfile_cases s.eroe profile)
  | setCustomProfile cfg => exact h.profile (setCustomProfile_cases s.eroe cfg)

end EroeSession.Tracks

/-- The governor keeps its workloads in order over a run exactly if each declaration of it is
plain. -/
theorem eroe_workloads_keep_iff (calls : List EroeCall) :
    Throughout EroeSession.next EroeSession.Keeps .start calls ↔
      Throughout EroeSession.next (fun s call => call.Plain s) .start calls := by
  apply throughout_iff (throughout_of_forall (P := fun _ => True) fun _ _ => trivial)
    (I := fun s => s.Tracks ∧ s.eroe.Sound)
  · exact ⟨.start, sound_of_cleared (fun _ => rfl) rfl⟩
  · exact fun s call hs _ => keeps_iff_plain hs.1 hs.2 call
  · exact fun s call hs _ hkeeps => ⟨hs.1.next call, hkeeps.1⟩

/-- A workload, its new load and a profile. -/
theorem eroe_workloads_keep_iff_update :
    Throughout EroeSession.next EroeSession.Keeps .start
      [.declareWorkload [97] 0 ⟨1, by norm_num, by norm_num⟩,
        .declareWorkload [97] 1 ⟨1 / 2, by norm_num, by norm_num⟩, .setProfile 2] := by
  apply (eroe_workloads_keep_iff _).mpr
  refine ⟨⟨?_, ?_⟩, ⟨?_, ?_⟩, trivial, trivial⟩ <;> simp

/-- A workload that is stopped still counts. -/
theorem eroe_stopped_workload_counted :
    ¬ Throughout EroeSession.next EroeSession.Keeps .start
      [.declareWorkload [97] 0 ⟨1, by norm_num, by norm_num⟩,
        .declareWorkload [97] 0 ⟨0, by norm_num, by norm_num⟩] := by
  rintro ⟨-, ⟨hsound, -⟩, -⟩
  have hcounted := hsound.counted
  revert hcounted
  decide

end BradVector
