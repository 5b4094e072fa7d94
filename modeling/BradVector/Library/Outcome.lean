import Mathlib.Data.Fin.Basic

/-!
# Outcomes of C code

A C function either produces a value, leaves early through an error path, or does something the
language gives no meaning to, such as indexing past an array. `Outcome` keeps the three apart, so
that "this never touches memory it does not own" is the statement that the third one does not occur.

`Sat` is the matching pre- and postcondition judgement. Its rules follow the ways code is put
together: sequencing, and counted loops with an invariant indexed by the iteration.
-/

namespace CSem

/-- What a piece of C does: a value, an early exit with `ε`, or undefined behaviour, labelled by the
access `υ` that caused it. -/
inductive Outcome (υ ε α : Type) where
  | ok (a : α)
  | stop (e : ε)
  | undefined (u : υ)
  deriving DecidableEq, Repr

namespace Outcome

variable {υ ε α β σ : Type}

def bind : Outcome υ ε α → (α → Outcome υ ε β) → Outcome υ ε β
  | ok a, f => f a
  | stop e, _ => stop e
  | undefined u, _ => undefined u

instance : Monad (Outcome υ ε) where
  pure := ok
  bind := bind

@[simp]
theorem ok_bind (a : α) (f : α → Outcome υ ε β) : (ok a : Outcome υ ε α).bind f = f a := rfl

@[simp]
theorem stop_bind (e : ε) (f : α → Outcome υ ε β) : (stop e : Outcome υ ε α).bind f = stop e := rfl

@[simp]
theorem undefined_bind (u : υ) (f : α → Outcome υ ε β) :
    (undefined u : Outcome υ ε α).bind f = undefined u := rfl

@[simp]
theorem bind_eq_bind (o : Outcome υ ε α) (f : α → Outcome υ ε β) : o >>= f = o.bind f := rfl

@[simp]
theorem pure_eq_ok (a : α) : (pure a : Outcome υ ε α) = ok a := rfl

theorem bind_assoc {γ : Type} (o : Outcome υ ε α) (f : α → Outcome υ ε β)
    (g : β → Outcome υ ε γ) : (o.bind f).bind g = o.bind fun a => (f a).bind g := by
  cases o <;> rfl

theorem bind_eq_ok_iff {o : Outcome υ ε α} {f : α → Outcome υ ε β} {b : β} :
    o.bind f = ok b ↔ ∃ a, o = ok a ∧ f a = ok b := by
  cases o <;> simp

/-! ### Postconditions -/

/-- `o` ends in one of the three ways, and the postcondition for that way holds. -/
def Sat (o : Outcome υ ε α) (onOk : α → Prop) (onStop : ε → Prop) (onUndefined : υ → Prop) : Prop :=
  match o with
  | ok a => onOk a
  | stop e => onStop e
  | undefined u => onUndefined u

section Rules

variable {Q : α → Prop} {R : β → Prop} {E : ε → Prop} {U : υ → Prop}

@[simp]
theorem sat_ok (a : α) : (ok a : Outcome υ ε α).Sat Q E U ↔ Q a := Iff.rfl

@[simp]
theorem sat_stop (e : ε) : (stop e : Outcome υ ε α).Sat Q E U ↔ E e := Iff.rfl

@[simp]
theorem sat_undefined (u : υ) : (undefined u : Outcome υ ε α).Sat Q E U ↔ U u := Iff.rfl

theorem Sat.bind {o : Outcome υ ε α} {f : α → Outcome υ ε β} (ho : o.Sat Q E U)
    (hf : ∀ a, Q a → (f a).Sat R E U) : (o.bind f).Sat R E U := by
  cases o with
  | ok a => exact hf a ho
  | stop e => exact ho
  | undefined u => exact ho

/-- Where only normal returns matter, nothing need be known of the first part. -/
theorem Sat.bind_of_forall {o : Outcome υ ε α} {f : α → Outcome υ ε β}
    (hf : ∀ a, (f a).Sat R (fun _ => True) fun _ => True) :
    (o.bind f).Sat R (fun _ => True) fun _ => True := by
  cases o with
  | ok a => exact hf a
  | stop e => trivial
  | undefined u => trivial

theorem Sat.mono {o : Outcome υ ε α} {Q' : α → Prop} {E' : ε → Prop} {U' : υ → Prop}
    (ho : o.Sat Q E U) (hQ : ∀ a, Q a → Q' a) (hE : ∀ e, E e → E' e) (hU : ∀ u, U u → U' u) :
    o.Sat Q' E' U' := by
  cases o with
  | ok a => exact hQ a ho
  | stop e => exact hE e ho
  | undefined u => exact hU u ho

theorem Sat.and {o : Outcome υ ε α} {Q' : α → Prop} {E' : ε → Prop} {U' : υ → Prop}
    (ho : o.Sat Q E U) (ho' : o.Sat Q' E' U') :
    o.Sat (fun a => Q a ∧ Q' a) (fun e => E e ∧ E' e) (fun u => U u ∧ U' u) := by
  cases o with
  | ok a => exact ⟨ho, ho'⟩
  | stop e => exact ⟨ho, ho'⟩
  | undefined u => exact ⟨ho, ho'⟩

theorem Sat.of_eq_ok {o : Outcome υ ε α} {a : α} (ho : o.Sat Q E U) (h : o = ok a) : Q a := by
  subst h
  exact ho

theorem Sat.of_eq_stop {o : Outcome υ ε α} {e : ε} (ho : o.Sat Q E U) (h : o = stop e) : E e := by
  subst h
  exact ho

theorem Sat.of_eq_undefined {o : Outcome υ ε α} {u : υ} (ho : o.Sat Q E U)
    (h : o = undefined u) : U u := by
  subst h
  exact ho

theorem Sat.exists_ok {o : Outcome υ ε α}
    (ho : o.Sat Q (fun _ => False) (fun _ => False)) : ∃ a, o = ok a ∧ Q a := by
  cases o with
  | ok a => exact ⟨a, rfl, ho⟩
  | stop e => exact ho.elim
  | undefined u => exact ho.elim

end Rules

/-! ### Counted loops -/

/-- `for (i = 0; i < n; i++) body(i)`, leaving as soon as one iteration does. -/
def forRange : (n : Nat) → (Fin n → σ → Outcome υ ε σ) → σ → Outcome υ ε σ
  | 0, _, s => ok s
  | n + 1, body, s => (body 0 s).bind (forRange n fun i => body i.succ)

@[simp]
theorem forRange_zero (body : Fin 0 → σ → Outcome υ ε σ) (s : σ) : forRange 0 body s = ok s := rfl

theorem forRange_succ (n : Nat) (body : Fin (n + 1) → σ → Outcome υ ε σ) (s : σ) :
    forRange (n + 1) body s = (body 0 s).bind (forRange n fun i => body i.succ) := rfl

theorem forRange_of_head_undefined {n : Nat} {body : Fin n → σ → Outcome υ ε σ} {s : σ} {u : υ}
    (hn : 0 < n) (hu : body ⟨0, hn⟩ s = undefined u) : forRange n body s = undefined u := by
  cases n with
  | zero => exact absurd hn (Nat.lt_irrefl 0)
  | succ n =>
      rw [forRange_succ, show (0 : Fin (n + 1)) = ⟨0, hn⟩ from rfl, hu, undefined_bind]

/-- **The loop rule.** An invariant indexed by the iteration that holds on entry and that every
iteration carries to the next one holds with index `n` on exit. -/
theorem Sat.forRange {n : Nat} {body : Fin n → σ → Outcome υ ε σ} {I : Nat → σ → Prop}
    {E : ε → Prop} {U : υ → Prop} {s : σ} (hentry : I 0 s)
    (hstep : ∀ (i : Fin n) s, I i s → (body i s).Sat (I (i + 1)) E U) :
    (forRange n body s).Sat (I n) E U := by
  induction n generalizing I s with
  | zero => exact hentry
  | succ n ih =>
      rw [forRange_succ]
      refine Sat.bind (hstep 0 s hentry) fun s' hs' => ?_
      refine ih (I := fun i => I (i + 1)) (by simpa using hs') fun i t ht => ?_
      simpa using hstep i.succ t (by simpa using ht)

/-- A loop with an iteration that never returns normally does not either, whatever the iterations
before it do. -/
theorem Sat.forRange_of_never {n : Nat} {body : Fin n → σ → Outcome υ ε σ} {I : σ → Prop}
    {E : ε → Prop} {U : υ → Prop} {s : σ} (i : Fin n) (hentry : I s)
    (hstep : ∀ j s, I s → (body j s).Sat I E U)
    (hnever : ∀ s, I s → (body i s).Sat (fun _ => False) E U) :
    (Outcome.forRange n body s).Sat (fun _ => False) E U := by
  have hloop : (Outcome.forRange n body s).Sat (fun s => I s ∧ n ≤ i) E U := by
    refine Sat.forRange (I := fun k s => I s ∧ k ≤ i) ⟨hentry, Nat.zero_le _⟩ fun j s ⟨hs, hj⟩ => ?_
    rcases Nat.lt_or_eq_of_le hj with hlt | heq
    · exact (hstep j s hs).mono (fun _ h => ⟨h, hlt⟩) (fun _ => id) fun _ => id
    · rw [Fin.ext heq]
      exact (hnever s hs).mono (fun _ => False.elim) (fun _ => id) fun _ => id
  exact hloop.mono (fun _ h => absurd i.isLt (Nat.not_lt.mpr h.2)) (fun _ => id) fun _ => id

end Outcome

/-! ### Folds that can fail -/

/-- **The fold rule.** An invariant indexed by the number of elements done, kept by every step that
succeeds, holds of the result of a fold that succeeds. -/
theorem foldlM_ok {α σ ε : Type} {f : σ → α → Except ε σ} {l : List α} {I : Nat → σ → Prop}
    {s t : σ} (hok : l.foldlM f s = .ok t) (hentry : I 0 s)
    (hstep : ∀ k (hk : k < l.length) s s', I k s → f s l[k] = .ok s' → I (k + 1) s') :
    I l.length t := by
  induction l generalizing I s with
  | nil =>
      cases hok
      exact hentry
  | cons a l ih =>
      rw [List.foldlM_cons] at hok
      cases hres : f s a with
      | error e => simp [hres, bind, Except.bind] at hok
      | ok s' =>
          simp only [hres, bind, Except.bind] at hok
          refine ih (I := fun k => I (k + 1)) hok (hstep 0 (Nat.zero_lt_succ _) s s' hentry hres)
            fun k hk u u' hu hok' => ?_
          exact hstep (k + 1) (Nat.succ_lt_succ hk) u u' hu hok'

end CSem
