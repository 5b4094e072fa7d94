import Mathlib.Algebra.Group.Basic
import Mathlib.Data.Nat.Find
import Mathlib.Order.Basic

/-!
# Runs of a deterministic machine

A machine is a step function that goes on in a next state (`ok`) or ends the run with a result
(`error`). A run loop around it takes steps until one of them ends; `after` counts those steps, and
`EndsWith` says with what result, if any, they end.
-/

namespace CSem

namespace Machine

variable {σ ρ : Type} (step : σ → Except ρ σ)

/-- The state `n` steps on, or the result of a step before that. -/
def after : Nat → σ → Except ρ σ
  | 0, s => .ok s
  | n + 1, s =>
      match step s with
      | .ok t => after n t
      | .error r => .error r

/-- What the run from `s` ends with when it takes fewer than `n` steps, `d` otherwise. -/
def resultWithin (n : Nat) (s : σ) (d : ρ) : ρ :=
  match after step n s with
  | .ok _ => d
  | .error r => r

/-- The run from `s` takes finitely many steps and ends with `r`. -/
def EndsWith (s : σ) (r : ρ) : Prop := ∃ n t, after step n s = .ok t ∧ step t = .error r

variable {step} {s t u : σ} {r r' : ρ} {m n : Nat}

@[simp]
theorem after_zero : after step 0 s = .ok s := rfl

theorem after_succ_of_ok (h : step s = .ok t) : after step (n + 1) s = after step n t := by
  rw [after, h]

theorem after_succ_of_error (h : step s = .error r) : after step (n + 1) s = .error r := by
  rw [after, h]

theorem after_head_eq_ok_iff :
    after step (n + 1) s = .ok u ↔ ∃ t, step s = .ok t ∧ after step n t = .ok u := by
  cases h : step s with
  | ok t => simp [after_succ_of_ok h]
  | error r => simp [after_succ_of_error h]

theorem after_one : after step 1 s = step s := by
  cases h : step s with
  | ok t => rw [after_succ_of_ok h, after_zero]
  | error r => rw [after_succ_of_error h]

theorem after_add_of_ok (h : after step m s = .ok t) : after step (m + n) s = after step n t := by
  induction m generalizing s with
  | zero =>
      cases h
      rw [Nat.zero_add]
  | succ m ih =>
      rw [Nat.succ_add]
      cases hs : step s with
      | ok u =>
          rw [after_succ_of_ok hs] at h ⊢
          exact ih h
      | error r =>
          rw [after_succ_of_error hs] at h
          cases h

theorem after_add_of_error (h : after step m s = .error r) :
    after step (m + n) s = .error r := by
  induction m generalizing s with
  | zero => cases h
  | succ m ih =>
      rw [Nat.succ_add]
      cases hs : step s with
      | ok u =>
          rw [after_succ_of_ok hs] at h ⊢
          exact ih h
      | error r' =>
          rw [after_succ_of_error hs] at h ⊢
          exact h

theorem after_succ_eq_ok_iff :
    after step (n + 1) s = .ok u ↔ ∃ t, after step n s = .ok t ∧ step t = .ok u := by
  constructor
  · intro h
    cases hn : after step n s with
    | ok t =>
        rw [after_add_of_ok hn, after_one] at h
        exact ⟨t, rfl, h⟩
    | error r =>
        rw [after_add_of_error hn] at h
        cases h
  · rintro ⟨t, hn, ht⟩
    rw [after_add_of_ok hn, after_one, ht]

theorem exists_after_of_le (h : after step n s = .ok t) (hle : m ≤ n) :
    ∃ u, after step m s = .ok u ∧ after step (n - m) u = .ok t := by
  obtain ⟨k, rfl⟩ := Nat.exists_eq_add_of_le hle
  cases hm : after step m s with
  | ok u =>
      rw [after_add_of_ok hm] at h
      exact ⟨u, rfl, by rwa [Nat.add_sub_cancel_left]⟩
  | error r =>
      rw [after_add_of_error hm] at h
      cases h

theorem after_of_ends (h : after step n s = .ok t) (ht : step t = .error r) (hlt : n < m) :
    after step m s = .error r := by
  obtain ⟨k, rfl⟩ := Nat.exists_eq_add_of_lt hlt
  rw [Nat.add_assoc, after_add_of_ok h, after_succ_of_error ht]

theorem ends_unique (hn : after step n s = .ok t) (ht : step t = .error r)
    (hm : after step m s = .ok u) (hu : step u = .error r') : n = m ∧ t = u ∧ r = r' := by
  rcases Nat.lt_trichotomy n m with hlt | rfl | hlt
  · rw [after_of_ends hn ht hlt] at hm
    cases hm
  · obtain rfl : t = u := Except.ok.inj (hn.symm.trans hm)
    exact ⟨rfl, rfl, Except.error.inj (ht.symm.trans hu)⟩
  · rw [after_of_ends hm hu hlt] at hn
    cases hn

theorem EndsWith.unique (h : EndsWith step s r) (h' : EndsWith step s r') : r = r' := by
  obtain ⟨n, t, hn, ht⟩ := h
  obtain ⟨m, u, hm, hu⟩ := h'
  exact (ends_unique hn ht hm hu).2.2

theorem EndsWith.of_after (h : EndsWith step s r) (hn : after step n s = .ok t) :
    EndsWith step t r := by
  obtain ⟨m, u, hm, hu⟩ := h
  have hle : n ≤ m := by
    by_contra hlt
    rw [after_of_ends hm hu (Nat.lt_of_not_le hlt)] at hn
    cases hn
  obtain ⟨v, hv, hrest⟩ := exists_after_of_le hm hle
  obtain rfl : v = t := Except.ok.inj (hv.symm.trans hn)
  exact ⟨m - n, u, hrest, hu⟩

theorem EndsWith.prepend (hn : after step n s = .ok t) (h : EndsWith step t r) :
    EndsWith step s r := by
  obtain ⟨m, u, hm, hu⟩ := h
  exact ⟨n + m, u, by rw [after_add_of_ok hn, hm], hu⟩

/-- A preorder that holds of every step holds from the start of a run to its end. -/
theorem rel_of_after {R : σ → σ → Prop} (hrefl : ∀ s, R s s)
    (htrans : ∀ s t u, R s t → R t u → R s u) (hstep : ∀ s t, step s = .ok t → R s t)
    (h : after step n s = .ok t) : R s t := by
  induction n generalizing s with
  | zero =>
      cases h
      exact hrefl _
  | succ n ih =>
      obtain ⟨u, hu, hrest⟩ := after_head_eq_ok_iff.mp h
      exact htrans s u t (hstep s u hu) (ih hrest)

/-! ### All states of a run -/

/-- `P` holds of every state of the run from `s`. -/
def Along (step : σ → Except ρ σ) (P : σ → Prop) (s : σ) : Prop :=
  ∀ n t, after step n s = .ok t → P t

theorem along_of_step {P : σ → Prop} (h : P s) (hnext : ∀ t, step s = .ok t → Along step P t) :
    Along step P s := by
  intro n t hn
  cases n with
  | zero =>
      cases hn
      exact h
  | succ n =>
      obtain ⟨u, hu, hrest⟩ := after_head_eq_ok_iff.mp hn
      exact hnext u hu n t hrest

/-- What a step keeps from a state with `P` holds along a run on which `P` does. -/
theorem Along.invariant {P Q : σ → Prop} (h : Along step P s) (hstart : Q s)
    (hstep : ∀ t u, P t → Q t → step t = .ok u → Q u) : Along step Q s := by
  intro n t hn
  induction n generalizing t with
  | zero =>
      cases hn
      exact hstart
  | succ n ih =>
      obtain ⟨u, hu, hlast⟩ := after_succ_eq_ok_iff.mp hn
      exact hstep u t (h n u hu) (ih u hu) hlast

/-! ### Bounded runs -/

theorem resultWithin_of_error {d : ρ} (h : after step n s = .error r) :
    resultWithin step n s d = r := by
  rw [resultWithin, h]

theorem EndsWith.of_after_error (h : after step n s = .error r) : EndsWith step s r := by
  induction n generalizing s with
  | zero => cases h
  | succ n ih =>
      cases hs : step s with
      | ok t =>
          rw [after_succ_of_ok hs] at h
          obtain ⟨m, u, hm, hu⟩ := ih h
          exact ⟨m + 1, u, by rw [after_succ_of_ok hs, hm], hu⟩
      | error r' =>
          rw [after_succ_of_error hs] at h
          obtain rfl := Except.error.inj h
          exact ⟨0, s, after_zero, hs⟩

/-- A measure that falls with every step bounds the run. -/
theorem ends_resultWithin {measure : σ → Nat} {d : ρ}
    (hstep : ∀ s t, step s = .ok t → measure t < measure s) (h : measure s < n) :
    EndsWith step s (resultWithin step n s d) := by
  suffices hend : ∃ r, after step n s = .error r by
    obtain ⟨r, hr⟩ := hend
    rw [resultWithin_of_error hr]
    exact .of_after_error hr
  induction n generalizing s with
  | zero => exact absurd h (Nat.not_lt_zero _)
  | succ n ih =>
      cases hs : step s with
      | ok t =>
          obtain ⟨r, hr⟩ := ih (Nat.lt_of_lt_of_le (hstep s t hs) (Nat.lt_succ_iff.mp h))
          exact ⟨r, by rw [after_succ_of_ok hs, hr]⟩
      | error r => exact ⟨r, after_succ_of_error hs⟩

/-! ### Sums along a run -/

section Total

variable {α : Type} [AddMonoid α]

/-- The sum of `f` over the first `n` states of the run from `s`. -/
def total (step : σ → Except ρ σ) (f : σ → α) : Nat → σ → α
  | 0, _ => 0
  | n + 1, s =>
      f s +
        match step s with
        | .ok t => total step f n t
        | .error _ => 0

/-- A quantity that grows by `f` with every step into `P` has grown by the sum of `f` where `P`
holds; `P` holds of a state when it holds of the next one. -/
theorem eq_add_total {f g : σ → α} {P : σ → Prop}
    (hstep : ∀ s t, step s = .ok t → P t → P s ∧ g t = g s + f s)
    (h : after step n s = .ok t) (ht : P t) : P s ∧ g t = g s + total step f n s := by
  induction n generalizing s with
  | zero =>
      cases h
      exact ⟨ht, (add_zero _).symm⟩
  | succ n ih =>
      obtain ⟨u, hu, hrest⟩ := after_head_eq_ok_iff.mp h
      obtain ⟨hPu, hgrow⟩ := ih hrest
      obtain ⟨hPs, hfirst⟩ := hstep s u hu hPu
      refine ⟨hPs, ?_⟩
      rw [hgrow, hfirst, total, hu, add_assoc]

end Total

/-! ### The first state with a property -/

/-- After `n` steps from `s` the run is in `t`, its first state with `P`. -/
structure First (step : σ → Except ρ σ) (P : σ → Prop) (s : σ) (n : Nat) (t : σ) : Prop where
  reached : after step n s = .ok t
  holds : P t
  earlier : ∀ m u, m < n → after step m s = .ok u → ¬ P u

theorem First.unique {P : σ → Prop} (h : First step P s n t) (h' : First step P s m u) : t = u := by
  obtain hlt | rfl | hlt := Nat.lt_trichotomy n m
  · exact absurd h.holds (h'.earlier n t hlt h.reached)
  · exact Except.ok.inj (h.reached.symm.trans h'.reached)
  · exact absurd h'.holds (h.earlier m u hlt h'.reached)

theorem exists_first {P : σ → Prop} (h : after step n s = .ok t) (hP : P t) :
    ∃ m u, First step P s m u := by
  classical
  have hex : ∃ m, ∃ u, after step m s = .ok u ∧ P u := ⟨n, t, h, hP⟩
  obtain ⟨u, hu, hPu⟩ := Nat.find_spec hex
  refine ⟨Nat.find hex, u, hu, hPu, ?_⟩
  intro m v hlt hv hPv
  exact Nat.find_min hex hlt ⟨v, hv, hPv⟩

theorem First.exists_of_imp {P Q : σ → Prop} (h : First step P s n t) (himp : ∀ u, P u → Q u) :
    ∃ m u, First step Q s m u :=
  exists_first h.reached (himp t h.holds)

end Machine

/-! ### Loops with fuel -/

/-- What two loops do when each is given more fuel than a measure of its argument: a step may take
it for everything smaller. -/
theorem fuel_induction {α : Type*} (room : α → Nat) {P : Nat → Nat → α → Prop}
    (hstep : ∀ fuel fuel' a, room a ≤ fuel → (∀ b, room b < room a → P fuel fuel' b) →
      P (fuel + 1) (fuel' + 1) a)
    {fuel fuel' : Nat} {a : α} (h : room a < fuel) (h' : room a < fuel') : P fuel fuel' a := by
  induction fuel generalizing fuel' a with
  | zero => exact absurd h (Nat.not_lt_zero _)
  | succ fuel ih =>
      cases fuel' with
      | zero => exact absurd h' (Nat.not_lt_zero _)
      | succ fuel' =>
          apply hstep fuel fuel' a (Nat.lt_succ_iff.mp h)
          intro b hb
          exact ih (by omega) (by omega)

end CSem
