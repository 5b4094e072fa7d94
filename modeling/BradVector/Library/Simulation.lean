import Mathlib.Logic.Function.Iterate

/-!
# Simulation of a source of events

A machine takes step after step, and a step may make an event visible. A source has one event after
the other to give, or none any more. A relation that each step keeps, either without an event or
together with the source's next one, shows that the machine makes visible what the source gives, and
in the same order.
-/

namespace CSem

variable {σ τ ε : Type*}

/-- The events of `n` steps. -/
def events (next : σ → σ) (event : σ → Option ε) : Nat → σ → List ε
  | 0, _ => []
  | n + 1, s => (event s).toList ++ events next event n (next s)

/-- The first `n` events of a source, or all if there are fewer. -/
def firstEvents (source : τ → Option (ε × τ)) : Nat → τ → List ε
  | 0, _ => []
  | n + 1, t =>
      match source t with
      | none => []
      | some (e, u) => e :: firstEvents source n u

section

variable {next : σ → σ} {event : σ → Option ε} {source : τ → Option (ε × τ)} {s : σ} {t u : τ}
  {e : ε} {n : Nat}

theorem events_succ_of_none (h : event s = none) :
    events next event (n + 1) s = events next event n (next s) := by
  rw [events, h]
  rfl

theorem events_succ_of_some (h : event s = some e) :
    events next event (n + 1) s = e :: events next event n (next s) := by
  rw [events, h]
  rfl

theorem events_add (next : σ → σ) (event : σ → Option ε) (m n : Nat) (s : σ) :
    events next event (m + n) s = events next event m s ++ events next event n (next^[m] s) := by
  induction m generalizing s with
  | zero =>
      rw [Nat.zero_add]
      rfl
  | succ m ih => rw [Nat.succ_add, events, ih, events, List.append_assoc,
    Function.iterate_succ_apply]

theorem events_length_pos {i : Nat} (hi : i < n) (h : event (next^[i] s) = some e) :
    0 < (events next event n s).length := by
  obtain ⟨k, rfl⟩ := Nat.exists_eq_add_of_lt hi
  rw [show i + k + 1 = i + (k + 1) by omega, events_add, events_succ_of_some h, List.length_append,
    List.length_cons]
  omega

theorem firstEvents_succ_of_some (h : source t = some (e, u)) :
    firstEvents source (n + 1) t = e :: firstEvents source n u := by
  rw [firstEvents, h]

theorem firstEvents_of_none (h : source t = none) : firstEvents source n t = [] := by
  cases n with
  | zero => rfl
  | succ n => rw [firstEvents, h]

end

/-- One step of the machine, from a state the source's state is related to. -/
def StepSimulates (next : σ → σ) (event : σ → Option ε) (source : τ → Option (ε × τ))
    (R : σ → τ → Prop) (s : σ) : Prop :=
  ∀ t, R s t →
    (event s = none ∧ R (next s) t) ∨
      ∃ e u, event s = some e ∧ source t = some (e, u) ∧ R (next s) u

/-- A run all of whose steps simulate makes visible the first events of the source, and ends related
to a state from which the source gives the others. -/
theorem events_eq_firstEvents {next : σ → σ} {event : σ → Option ε} {source : τ → Option (ε × τ)}
    {R : σ → τ → Prop} {n : Nat} {s : σ} {t : τ} (hR : R s t)
    (hsteps : ∀ i < n, StepSimulates next event source R (next^[i] s)) :
    ∃ m u, R (next^[n] s) u ∧
      ∀ k, firstEvents source (m + k) t = events next event n s ++ firstEvents source k u := by
  induction n generalizing s t with
  | zero => exact ⟨0, t, hR, fun k => by rw [Nat.zero_add]; rfl⟩
  | succ n ih =>
      have hfirst : StepSimulates next event source R s := hsteps 0 n.succ_pos
      have hrest : ∀ i < n, StepSimulates next event source R (next^[i] (next s)) := by
        intro i hi
        exact hsteps (i + 1) (Nat.succ_lt_succ hi)
      obtain ⟨hnone, hnext⟩ | ⟨e, u, hsome, hsource, hnext⟩ := hfirst t hR
      · obtain ⟨m, u, hu, hk⟩ := ih hnext hrest
        refine ⟨m, u, hu, ?_⟩
        intro k
        rw [events_succ_of_none hnone, hk]
      · obtain ⟨m, v, hv, hk⟩ := ih hnext hrest
        refine ⟨m + 1, v, hv, ?_⟩
        intro k
        rw [Nat.add_right_comm, firstEvents_succ_of_some hsource, events_succ_of_some hsome, hk,
          List.cons_append]

/-! ### Steps that match several -/

/-- What `n` steps put out. -/
def outputs (next : σ → σ) (out : σ → List ε) : Nat → σ → List ε
  | 0, _ => []
  | n + 1, s => out s ++ outputs next out n (next s)

theorem outputs_add (next : σ → σ) (out : σ → List ε) (m n : Nat) (s : σ) :
    outputs next out (m + n) s = outputs next out m s ++ outputs next out n (next^[m] s) := by
  induction m generalizing s with
  | zero =>
      rw [Nat.zero_add]
      rfl
  | succ m ih => rw [Nat.succ_add, outputs, ih, outputs, List.append_assoc,
    Function.iterate_succ_apply]

theorem outputs_prefix {next : σ → σ} {out : σ → List ε} {m n : Nat} (h : m ≤ n) (s : σ) :
    outputs next out m s <+: outputs next out n s := by
  obtain ⟨k, rfl⟩ := Nat.exists_eq_add_of_le h
  rw [outputs_add]
  exact List.prefix_append _ _

/-- Two machines put out the same: at any time one has put out what the other puts out in some
steps, and all that the other puts out comes. -/
structure SameOutputs (next : σ → σ) (out : σ → List ε) (next' : τ → τ) (out' : τ → List ε) (s : σ)
    (t : τ) : Prop where
  sound : ∀ n, ∃ m, outputs next out n s = outputs next' out' m t
  complete : ∀ m, ∃ n, outputs next' out' m t <+: outputs next out n s

/-- Of what the two have put out at any times, one comes first in the other. -/
theorem SameOutputs.comparable {next : σ → σ} {out : σ → List ε} {next' : τ → τ} {out' : τ → List ε}
    {s : σ} {t : τ} (h : SameOutputs next out next' out' s t) (n m : Nat) :
    outputs next out n s <+: outputs next' out' m t ∨
      outputs next' out' m t <+: outputs next out n s := by
  obtain ⟨k, hk⟩ := h.sound n
  rw [hk]
  exact (Nat.le_total k m).imp (fun hle => outputs_prefix hle t) fun hle => outputs_prefix hle t

/-- A step of the machine does what `k` steps of the other do; none only as its measure falls. -/
def StepMatches (next : σ → σ) (out : σ → List ε) (next' : τ → τ) (out' : τ → List ε)
    (R : σ → τ → Prop) (measure : σ → Nat) (s : σ) (t : τ) : Prop :=
  ∃ k, R (next s) (next'^[k] t) ∧ out s = outputs next' out' k t ∧
    (k = 0 → measure (next s) < measure s)

section Matching

variable {next : σ → σ} {out : σ → List ε} {next' : τ → τ} {out' : τ → List ε} {R : σ → τ → Prop}
  {measure : σ → Nat} {s : σ} {t : τ}

/-- The outputs of `n` steps from `s` are those of `k` steps from `t`, and the relation holds
again. -/
def Matched (next : σ → σ) (out : σ → List ε) (next' : τ → τ) (out' : τ → List ε) (R : σ → τ → Prop)
    (n k : Nat) (s : σ) (t : τ) : Prop :=
  R (next^[n] s) (next'^[k] t) ∧ outputs next out n s = outputs next' out' k t

theorem Matched.trans {n k n' k' : Nat} (h : Matched next out next' out' R n k s t)
    (h' : Matched next out next' out' R n' k' (next^[n] s) (next'^[k] t)) :
    Matched next out next' out' R (n + n') (k + k') s t := by
  obtain ⟨_, hout⟩ := h
  obtain ⟨hR, hout'⟩ := h'
  constructor
  · rwa [Nat.add_comm n, Nat.add_comm k, Function.iterate_add_apply, Function.iterate_add_apply]
  · rw [outputs_add, outputs_add, hout, hout']

theorem StepMatches.matched (h : StepMatches next out next' out' R measure s t) :
    ∃ k, Matched next out next' out' R 1 k s t ∧ (k = 0 → measure (next s) < measure s) := by
  obtain ⟨k, hR, hout, hmeasure⟩ := h
  refine ⟨k, ⟨hR, ?_⟩, hmeasure⟩
  rw [← hout, outputs, outputs, List.append_nil]

variable (hsteps : ∀ s t, R s t → StepMatches next out next' out' R measure s t)

include hsteps

theorem matched_of_steps (hR : R s t) (n : Nat) : ∃ k, Matched next out next' out' R n k s t := by
  induction n with
  | zero => exact ⟨0, hR, rfl⟩
  | succ n ih =>
      obtain ⟨k, hk⟩ := ih
      obtain ⟨k', hk', _⟩ := (hsteps _ _ hk.1).matched
      exact ⟨k + k', hk.trans hk'⟩

/-- The measure cannot fall for ever. -/
theorem exists_matched_pos (hR : R s t) : ∃ n k, 0 < k ∧ Matched next out next' out' R n k s t := by
  generalize hbound : measure s = bound
  induction bound using Nat.strongRecOn generalizing s with
  | ind bound ih =>
      obtain ⟨k, hk, hmeasure⟩ := (hsteps s t hR).matched
      cases k with
      | succ k => exact ⟨1, k + 1, k.succ_pos, hk⟩
      | zero =>
          obtain ⟨n, k', hpos, hk'⟩ := ih _ (hbound ▸ hmeasure rfl) hk.1 rfl
          exact ⟨1 + n, 0 + k', Nat.lt_of_lt_of_le hpos (Nat.le_add_left _ _), hk.trans hk'⟩

theorem exists_matched_ge (hR : R s t) (m : Nat) : ∃ n k, m ≤ k ∧
    Matched next out next' out' R n k s t := by
  induction m with
  | zero => exact ⟨0, 0, Nat.le_refl 0, hR, rfl⟩
  | succ m ih =>
      obtain ⟨n, k, hle, hk⟩ := ih
      obtain ⟨n', k', hpos, hk'⟩ := exists_matched_pos hsteps hk.1
      exact ⟨n + n', k + k', by omega, hk.trans hk'⟩

/-- A machine whose every step matches steps of another puts out the same. -/
theorem sameOutputs_of_steps (hR : R s t) : SameOutputs next out next' out' s t := by
  constructor
  · intro n
    obtain ⟨k, _, hout⟩ := matched_of_steps hsteps hR n
    exact ⟨k, hout⟩
  · intro m
    obtain ⟨n, k, hle, _, hout⟩ := exists_matched_ge hsteps hR m
    refine ⟨n, ?_⟩
    rw [hout]
    exact outputs_prefix hle t

end Matching

end CSem
