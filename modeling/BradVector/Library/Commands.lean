import Mathlib.Data.List.Infix

/-!
# Runs of commands

A machine that takes a command in each state. A property of a command and the state it finds may
hold throughout a run; an invariant that each such command keeps holds at the end of it.
-/

namespace CSem

variable {σ α : Type*}

/-- Every command of the run from `s` meets `P` in the state it finds. -/
def Throughout (next : σ → α → σ) (P : σ → α → Prop) : σ → List α → Prop
  | _, [] => True
  | s, a :: as => P s a ∧ Throughout next P (next s a) as

instance decidableThroughout {next : σ → α → σ} {P : σ → α → Prop} [∀ s a, Decidable (P s a)] :
    ∀ s as, Decidable (Throughout next P s as)
  | _, [] => .isTrue trivial
  | s, a :: as =>
      have : Decidable (Throughout next P (next s a) as) := decidableThroughout (next s a) as
      inferInstanceAs (Decidable (P s a ∧ Throughout next P (next s a) as))

section

variable {next : σ → α → σ} {P Q : σ → α → Prop} {s : σ} {a : α} {as : List α}

@[simp]
theorem throughout_nil : Throughout next P s [] := trivial

@[simp]
theorem throughout_cons :
    Throughout next P s (a :: as) ↔ P s a ∧ Throughout next P (next s a) as := Iff.rfl

theorem throughout_of_forall {P : α → Prop} (h : ∀ a ∈ as, P a) :
    Throughout next (fun _ => P) s as := by
  induction as generalizing s with
  | nil => trivial
  | cons a as ih => exact ⟨h a List.mem_cons_self, ih fun b hb => h b (List.mem_cons_of_mem a hb)⟩

/-- A property may be shown of each command with the commands before it. -/
theorem throughout_of_before
    (h : ∀ before a, before ++ [a] <+: as → P (before.foldl next s) a) :
      Throughout next P s as := by
  induction as generalizing s with
  | nil => trivial
  | cons a as ih =>
      constructor
      · exact h [] a (List.prefix_append [a] as)
      · apply ih
        intro before b hbefore
        apply h (a :: before) b
        exact (List.prefix_cons_inj a).mpr hbefore

theorem Throughout.before (h : Throughout next P s as) {before : List α} {a : α}
    (hbefore : before ++ [a] <+: as) : P (before.foldl next s) a := by
  induction as generalizing s before with
  | nil => simp at hbefore
  | cons b as ih =>
      cases before with
      | nil =>
          obtain rfl : a = b := (List.cons_prefix_cons.mp hbefore).1
          exact h.1
      | cons c before =>
          obtain ⟨rfl, hrest⟩ := List.cons_prefix_cons.mp hbefore
          exact ih h.2 hrest

/-- The rule of invariants. -/
theorem Throughout.foldl {I : σ → Prop} (h : Throughout next P s as) (hI : I s)
    (hstep : ∀ s a, I s → P s a → I (next s a)) : I (as.foldl next s) := by
  induction as generalizing s with
  | nil => exact hI
  | cons a as ih => exact ih h.2 (hstep s a hI h.1)

/-- What each command does in a state of the invariant holds throughout. -/
theorem Throughout.imp {I : σ → Prop} (h : Throughout next P s as) (hI : I s)
    (hstep : ∀ s a, I s → P s a → Q s a ∧ I (next s a)) : Throughout next Q s as := by
  induction as generalizing s with
  | nil => trivial
  | cons a as ih =>
      obtain ⟨hQ, hnext⟩ := hstep s a hI h.1
      exact ⟨hQ, ih h.2 hnext⟩

/-- Two properties of a command that agree in every state of an invariant, which the one keeps. -/
theorem throughout_iff {B : σ → α → Prop} {I : σ → Prop} (hB : Throughout next B s as) (hI : I s)
    (hiff : ∀ s a, I s → B s a → (P s a ↔ Q s a))
    (hkeep : ∀ s a, I s → B s a → P s a → I (next s a)) :
    Throughout next P s as ↔ Throughout next Q s as := by
  induction as generalizing s with
  | nil => exact Iff.rfl
  | cons a as ih =>
      rw [throughout_cons, throughout_cons, hiff s a hI hB.1]
      apply and_congr_right
      intro hQ
      exact ih hB.2 (hkeep s a hI hB.1 ((hiff s a hI hB.1).mpr hQ))

/-- A view of the state follows the commands in every state of the run exactly when each command
takes the view where it should. -/
theorem view_follows_iff {β : Type*} {view : σ → β} {follow : β → α → β} :
    (∀ before, before <+: as → view (before.foldl next s) = before.foldl follow (view s)) ↔
      Throughout next (fun s a => view (next s a) = follow (view s) a) s as := by
  induction as generalizing s with
  | nil =>
      refine iff_of_true ?_ trivial
      intro before hbefore
      rw [List.prefix_nil.mp hbefore, List.foldl_nil, List.foldl_nil]
  | cons a as ih =>
      rw [throughout_cons, ← ih]
      constructor
      · intro h
        have hhead : view (next s a) = follow (view s) a := h [a] (List.prefix_append [a] as)
        refine ⟨hhead, fun before hbefore => ?_⟩
        rw [hhead]
        exact h (a :: before) ((List.prefix_cons_inj a).mpr hbefore)
      · rintro ⟨hhead, htail⟩ before hbefore
        cases before with
        | nil => rfl
        | cons b before =>
            obtain ⟨rfl, hrest⟩ := List.cons_prefix_cons.mp hbefore
            rw [List.foldl_cons, List.foldl_cons, ← hhead]
            exact htail before hrest

end

end CSem
