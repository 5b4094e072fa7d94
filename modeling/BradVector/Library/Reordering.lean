import BradVector.Library.Outcome
import Mathlib.Data.List.FinRange

/-!
# Loops in another order

Iterations that commute may be taken in any order: where two neighbours can be exchanged in every
state that is ready for what is left of the loop, all orders that end normally end in the same
state. The last rules compare runs of one loop from different states.
-/

namespace CSem.Outcome

variable {υ ε σ ι : Type} {body : ι → σ → Outcome υ ε σ}

/-- The loop over the elements of a list, leaving as soon as one iteration does. -/
def forEach (body : ι → σ → Outcome υ ε σ) : List ι → σ → Outcome υ ε σ
  | [], s => ok s
  | a :: l, s => (body a s).bind (forEach body l)

theorem forEach_map {κ : Type} (f : κ → ι) (l : List κ) (s : σ) :
    forEach body (l.map f) s = forEach (fun k => body (f k)) l s := by
  induction l generalizing s with
  | nil => rfl
  | cons k l ih =>
      rw [List.map_cons, forEach, forEach]
      exact congrArg _ (funext ih)

theorem forRange_eq_forEach {n : Nat} (body : Fin n → σ → Outcome υ ε σ) (s : σ) :
    forRange n body s = forEach body (List.finRange n) s := by
  induction n generalizing s with
  | zero => rfl
  | succ n ih =>
      rw [forRange_succ, List.finRange_succ, forEach]
      refine congrArg _ (funext fun t => ?_)
      rw [ih, forEach_map]

/-- **The rule of orders.** -/
theorem forEach_perm (Ready : List ι → σ → Prop) {l l' : List ι} {s u : σ}
    (hperm : ∀ {l l' s}, l.Perm l' → Ready l s → Ready l' s)
    (hnext : ∀ {a l s t}, Ready (a :: l) s → body a s = ok t → Ready l t)
    (hswap : ∀ {a b l s t u}, Ready (a :: b :: l) s → body a s = ok t → body b t = ok u →
      ∃ t', body b s = ok t' ∧ body a t' = ok u)
    (h : l.Perm l') (hready : Ready l s) (hok : forEach body l s = ok u) :
      forEach body l' s = ok u := by
  induction h generalizing s with
  | nil => exact hok
  | cons a _ ih =>
      obtain ⟨t, ht, hrest⟩ := bind_eq_ok_iff.mp hok
      exact bind_eq_ok_iff.mpr ⟨t, ht, ih (hnext hready ht) hrest⟩
  | swap b a l =>
      obtain ⟨t, ht, hrest⟩ := bind_eq_ok_iff.mp hok
      obtain ⟨v, hv, hlast⟩ := bind_eq_ok_iff.mp hrest
      obtain ⟨t', ht', hv'⟩ := hswap hready ht hv
      exact bind_eq_ok_iff.mpr ⟨t', ht', bind_eq_ok_iff.mpr ⟨v, hv', hlast⟩⟩
  | trans h₁ _ ih₁ ih₂ => exact ih₂ (hperm h₁ hready) (ih₁ hready hok)

/-- Two runs of a counted loop, each iteration of which keeps a relation between their states. -/
theorem forRange_related {n : Nat} {body : Fin n → σ → Outcome υ ε σ} {R : σ → σ → Prop}
    {s s' t : σ}
    (hstep : ∀ k s s' t, R s s' → body k s = ok t → ∃ t', body k s' = ok t' ∧ R t t') (h : R s s')
    (hok : forRange n body s = ok t) : ∃ t', forRange n body s' = ok t' ∧ R t t' := by
  induction n generalizing s s' with
  | zero =>
      obtain rfl := Outcome.ok.inj hok
      exact ⟨s', rfl, h⟩
  | succ n ih =>
      obtain ⟨u, hu, hrest⟩ := bind_eq_ok_iff.mp hok
      obtain ⟨u', hu', hR⟩ := hstep 0 s s' u h hu
      obtain ⟨t', ht', hend⟩ := ih (fun k => hstep k.succ) hR hrest
      exact ⟨t', bind_eq_ok_iff.mpr ⟨u', hu', ht'⟩, hend⟩

/-- Runs of a loop that differ in a part `d` of their states which no iteration depends on: what the
iterations make of the other part `v` is the same in all of them. -/
theorem forRange_family {δ τ : Type} {n : Nat} {f : δ → Fin n → σ → Outcome υ ε σ}
    {S : Nat → τ → δ → σ} {D : δ → Prop} {I : Nat → τ → Prop} {v : τ} (hentry : I 0 v)
    (hstep : ∀ (i : Fin n) v, I i v →
      ∃ v', (∀ d, D d → f d i (S i v d) = ok (S (i + 1) v' d)) ∧ I (i + 1) v') :
    ∃ v', (∀ d, D d → forRange n (f d) (S 0 v d) = ok (S n v' d)) ∧ I n v' := by
  induction n generalizing S I v with
  | zero => exact ⟨v, fun _ _ => rfl, hentry⟩
  | succ n ih =>
      obtain ⟨u, hu, hI⟩ := hstep 0 v hentry
      obtain ⟨v', hv', hend⟩ := ih (f := fun d i => f d i.succ) (S := fun i => S (i + 1))
        (I := fun i => I (i + 1)) hI fun i => hstep i.succ
      refine ⟨v', fun d hd => ?_, hend⟩
      rw [forRange_succ]
      have hfirst : f d 0 (S 0 v d) = ok (S (0 + 1) u d) := hu d hd
      rw [hfirst, ok_bind]
      exact hv' d hd

end CSem.Outcome
