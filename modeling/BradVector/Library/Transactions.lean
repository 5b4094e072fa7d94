import Mathlib.Data.List.Perm.Basic
import Mathlib.Logic.Function.Basic
import Mathlib.Logic.Relation

/-!
# Operations built from atomic transactions

Clients call operations on one shared cell. An operation is a program of transactions, each of which
reads the cell and replaces its value in one indivisible step; between two transactions of one
client the others may take any number of theirs. `Txn.run` says what an operation does when it runs
alone.

The rule below says when interleaved calls behave as some sequence of calls that run alone: as long
as no transaction is taken while another client is between two of its own.
-/

namespace CSem

/-- A program of transactions on a cell that holds a `σ`, with a result of type `α`. -/
inductive Txn (σ α : Type) where
  | done (a : α)
  | step (upd : σ → σ) (next : σ → Txn σ α)

/-- A run with a given first step, from the run behind it. -/
theorem exists_run_head {γ : Type} {R : γ → γ → Prop} {P : γ → Prop} {c d : γ} (h : R c d)
    (hd : ∃ e, Relation.ReflTransGen R d e ∧ P e) : ∃ e, Relation.ReflTransGen R c e ∧ P e := by
  obtain ⟨e, hrun, he⟩ := hd
  exact ⟨e, hrun.head h, he⟩

namespace Txn

variable {σ α κ ι : Type}

/-- The result of a program that runs alone, and what it leaves in the cell. -/
def run : Txn σ α → σ → α × σ
  | done a, s => (a, s)
  | step upd next, s => run (next s) (upd s)

/-- What a client is doing: nothing, or a call, of which it may have taken the first
transactions. -/
inductive Client (σ α κ : Type) where
  | idle
  | busy (call : κ) (begun : Bool) (rest : Txn σ α)

/-- The cell, the clients, and the calls that have returned with their results. -/
structure Config (σ α κ ι : Type) where
  cell : σ
  client : ι → Client σ α κ
  returned : List (κ × α)

/-- Nothing has been called. -/
def Config.start (s : σ) : Config σ α κ ι := ⟨s, fun _ => .idle, []⟩

/-- The client has taken a transaction of its call and has another one to take. -/
def Config.Midway (c : Config σ α κ ι) (i : ι) : Prop :=
  ∃ call upd next, c.client i = .busy call true (.step upd next)

def Config.Quiet (c : Config σ α κ ι) : Prop := ∀ i, c.client i = .idle

inductive Event (κ ι : Type) where
  | call (i : ι) (k : κ)
  | transact (i : ι)
  | ret (i : ι)

variable [DecidableEq ι] (prog : κ → Txn σ α)

/-- The configuration after client `i` has become `x`. -/
def Config.put (c : Config σ α κ ι) (i : ι) (x : Client σ α κ) (cell : σ)
    (returned : List (κ × α)) : Config σ α κ ι :=
  ⟨cell, Function.update c.client i x, returned⟩

/-- What one client does next: it makes a call, takes a transaction, or returns. -/
inductive Step : Config σ α κ ι → Event κ ι → Config σ α κ ι → Prop
  | call {c : Config σ α κ ι} {i : ι} {k : κ} (h : c.client i = .idle) :
      Step c (.call i k) (c.put i (.busy k false (prog k)) c.cell c.returned)
  | transact {c : Config σ α κ ι} {i : ι} {k : κ} {begun : Bool} {upd : σ → σ}
      {next : σ → Txn σ α} (h : c.client i = .busy k begun (.step upd next)) :
      Step c (.transact i) (c.put i (.busy k true (next c.cell)) (upd c.cell) c.returned)
  | ret {c : Config σ α κ ι} {i : ι} {k : κ} {begun : Bool} {a : α}
      (h : c.client i = .busy k begun (.done a)) :
      Step c (.ret i) (c.put i .idle c.cell (c.returned ++ [(k, a)]))

/-- The calls, one after the other and each alone, give these results and leave `t` in the cell. -/
inductive Replays : σ → List (κ × α) → σ → Prop
  | nil (s : σ) : Replays s [] s
  | snoc {s t : σ} {order : List (κ × α)} {k : κ} (h : Replays s order t) :
      Replays s (order ++ [(k, ((prog k).run t).1)]) ((prog k).run t).2

/-- The results of the calls that have returned and the cell are those of some sequential order of
these calls. -/
def Linearizable (s : σ) (c : Config σ α κ ι) : Prop :=
  ∃ order, order.Perm c.returned ∧ Replays prog s order c.cell

/-- The event does not take a transaction while another client is midway through a call. -/
def Undisturbed (c : Config σ α κ ι) : Event κ ι → Prop
  | .transact i => ∀ j, c.Midway j → j = i
  | _ => True

/-- One step, of any client, that disturbs nobody. -/
def Next (c c' : Config σ α κ ι) : Prop := ∃ e, Step prog c e c' ∧ Undisturbed c e

omit [DecidableEq ι] in
variable {prog} in
theorem Replays.cell_eq {s t : σ} {order : List (κ × α)} (h : Replays prog s order t) :
    t = order.foldl (fun s x => ((prog x.1).run s).2) s := by
  induction h with
  | nil => rfl
  | snoc _ ih => rw [List.foldl_append, ← ih, List.foldl_cons, List.foldl_nil]

/-! ### Undisturbed runs -/

/-- What the sequential order so far explains: `order` replays to `s`; the cell holds `s` unless a
client is midway, whose remaining transactions will then bring it where its whole call brings `s`;
and the calls in the order that have not returned are those in `pending`. -/
structure Explains (s₀ : σ) (c : Config σ α κ ι) (s : σ) (order : List (κ × α))
    (pending : List (ι × κ × α)) : Prop where
  replays : Replays prog s₀ order s
  cell : (∀ i, ¬ c.Midway i) → c.cell = s
  midway : ∀ i k upd next, c.client i = .busy k true (.step upd next) →
    (step upd next).run c.cell = (prog k).run s
  fresh : ∀ i k rest, c.client i = .busy k false rest → rest = prog k
  perm : order.Perm (c.returned ++ pending.map Prod.snd)
  nodup : (pending.map Prod.fst).Nodup
  mem_pending : ∀ i k a, (i, k, a) ∈ pending ↔ c.client i = .busy k true (.done a)

variable {prog} {s₀ s : σ} {c c' : Config σ α κ ι} {order : List (κ × α)}
  {pending : List (ι × κ × α)} {i : ι} {k : κ}

omit [DecidableEq ι] in
theorem explains_start (s : σ) : Explains prog s (Config.start s : Config σ α κ ι) s [] [] where
  replays := .nil s
  cell _ := rfl
  midway _ _ _ _ h := by cases h
  fresh _ _ _ h := by cases h
  perm := .refl _
  nodup := List.nodup_nil
  mem_pending _ _ _ := ⟨fun h => absurd h List.not_mem_nil, fun h => by cases h⟩

theorem Config.put_client_iff {x y : Client σ α κ} {t : σ} {returned : List (κ × α)} {j : ι} :
    (c.put i x t returned).client j = y ↔ j = i ∧ x = y ∨ j ≠ i ∧ c.client j = y := by
  by_cases hji : j = i
  · subst hji
    simp [put]
  · simp [put, hji]

namespace Explains

/-- A client that is not midway before a step nor after it leaves the cell and the order
explained. -/
theorem put (h : Explains prog s₀ c s order pending) {x : Client σ α κ}
    {returned order' : List (κ × α)} {pending' : List (ι × κ × α)}
    (hreplays : Replays prog s₀ order' s) (hbefore : ¬ c.Midway i)
    (hafter : ∀ k upd next, x ≠ .busy k true (.step upd next))
    (hfresh : ∀ k rest, x = .busy k false rest → rest = prog k)
    (hperm : order'.Perm (returned ++ pending'.map Prod.snd))
    (hnodup : (pending'.map Prod.fst).Nodup) (hmem : ∀ j k a, (j, k, a) ∈ pending' ↔
      (c.put i x c.cell returned).client j = .busy k true (.done a)) :
    Explains prog s₀ (c.put i x c.cell returned) s order' pending' where
  replays := hreplays
  cell hnone := by
    refine h.cell fun j ⟨k', upd, next, hj⟩ => hnone j ⟨k', upd, next, ?_⟩
    refine Config.put_client_iff.mpr (.inr ⟨?_, hj⟩)
    rintro rfl
    exact hbefore ⟨k', upd, next, hj⟩
  midway j k' upd next hj := by
    rcases Config.put_client_iff.mp hj with ⟨-, hx⟩ | ⟨-, hj⟩
    · exact absurd hx (hafter k' upd next)
    · exact h.midway j k' upd next hj
  fresh j k' rest hj := by
    rcases Config.put_client_iff.mp hj with ⟨-, hx⟩ | ⟨-, hj⟩
    · exact hfresh k' rest hx
    · exact h.fresh j k' rest hj
  perm := hperm
  nodup := hnodup
  mem_pending := hmem

theorem call (h : Explains prog s₀ c s order pending) (hidle : c.client i = .idle) :
    Explains prog s₀ (c.put i (.busy k false (prog k)) c.cell c.returned) s order pending := by
  refine h.put h.replays ?_ ?_ ?_ h.perm h.nodup fun j k' a => ?_
  · rintro ⟨k', upd, next, hi⟩
    rw [hidle] at hi
    cases hi
  · intro k' upd next hx
    cases hx
  · intro k' rest hx
    cases hx
    rfl
  · rw [h.mem_pending, Config.put_client_iff]
    by_cases hji : j = i
    · subst hji
      simp [hidle]
    · simp [hji]

/-- A call whose last transaction is taken joins the order, and waits for its return. -/
theorem finish {t : σ} {a : α} (h : Explains prog s₀ c s order pending)
    (hnone : ∀ j, c.Midway j → j = i) (hnew : ∀ k a, c.client i ≠ .busy k true (.done a))
    (hrun : (prog k).run s = (a, t)) :
    Explains prog s₀ (c.put i (.busy k true (.done a)) t c.returned)
      t (order ++ [(k, a)]) ((i, k, a) :: pending) where
  replays := by
    have hsnoc := h.replays.snoc (k := k)
    rwa [hrun] at hsnoc
  cell _ := rfl
  midway j k' upd next hj := by
    rcases Config.put_client_iff.mp hj with ⟨-, hx⟩ | ⟨hji, hj⟩
    · cases hx
    · exact absurd (hnone j ⟨k', upd, next, hj⟩) hji
  fresh j k' rest hj := by
    rcases Config.put_client_iff.mp hj with ⟨-, hx⟩ | ⟨-, hj⟩
    · cases hx
    · exact h.fresh j k' rest hj
  perm := by
    have hmid : (order ++ [(k, a)]).Perm ((k, a) :: (c.returned ++ pending.map Prod.snd)) :=
      (List.perm_append_singleton _ _).trans (h.perm.cons _)
    exact hmid.trans List.perm_middle.symm
  nodup := by
    refine List.nodup_cons.mpr ⟨fun hmem => ?_, h.nodup⟩
    obtain ⟨⟨j, k', a'⟩, hp, rfl⟩ := List.mem_map.mp hmem
    exact hnew k' a' ((h.mem_pending j k' a').mp hp)
  mem_pending j k' a' := by
    rw [List.mem_cons, h.mem_pending, Config.put_client_iff]
    by_cases hji : j = i
    · subst hji
      simp [hnew k' a', eq_comm]
    · simp [hji]

/-- A transaction that is not the last one leaves the order as it is. -/
theorem proceed {t : σ} {upd : σ → σ} {next : σ → Txn σ α}
    (h : Explains prog s₀ c s order pending)
    (hnone : ∀ j, c.Midway j → j = i) (hnew : ∀ k a, c.client i ≠ .busy k true (.done a))
    (hrun : (step upd next).run t = (prog k).run s) :
    Explains prog s₀ (c.put i (.busy k true (.step upd next)) t c.returned) s order pending where
  replays := h.replays
  cell hquiet := absurd ⟨k, upd, next, Config.put_client_iff.mpr (.inl ⟨rfl, rfl⟩)⟩ (hquiet i)
  midway j k' upd' next' hj := by
    rcases Config.put_client_iff.mp hj with ⟨-, hx⟩ | ⟨hji, hj⟩
    · cases hx
      exact hrun
    · exact absurd (hnone j ⟨k', upd', next', hj⟩) hji
  fresh j k' rest hj := by
    rcases Config.put_client_iff.mp hj with ⟨-, hx⟩ | ⟨-, hj⟩
    · cases hx
    · exact h.fresh j k' rest hj
  perm := h.perm
  nodup := h.nodup
  mem_pending j k' a := by
    rw [h.mem_pending, Config.put_client_iff]
    by_cases hji : j = i
    · subst hji
      simp [hnew k' a]
    · simp [hji]

theorem transact {begun : Bool} {upd : σ → σ} {next : σ → Txn σ α}
    (h : Explains prog s₀ c s order pending) (hi : c.client i = .busy k begun (.step upd next))
    (hnone : ∀ j, c.Midway j → j = i) :
    ∃ t order' pending', Explains prog s₀
      (c.put i (.busy k true (next c.cell)) (upd c.cell) c.returned) t order' pending' := by
  have hnew : ∀ k a, c.client i ≠ .busy k true (.done a) := by
    intro k' a hdone
    rw [hi] at hdone
    cases hdone
  have hrun : (step upd next).run c.cell = (prog k).run s := by
    cases begun with
    | true => exact h.midway i k upd next hi
    | false =>
        have hcell : c.cell = s := by
          refine h.cell fun j hj => ?_
          obtain ⟨k', upd', next', hj'⟩ := hj
          rw [hnone j ⟨k', upd', next', hj'⟩, hi] at hj'
          cases hj'
        rw [hcell, h.fresh i k _ hi]
  change (next c.cell).run (upd c.cell) = _ at hrun
  cases hnext : next c.cell with
  | done a =>
      rw [hnext] at hrun
      exact ⟨_, _, _, h.finish hnone hnew hrun.symm⟩
  | step upd' next' =>
      rw [hnext] at hrun
      exact ⟨_, _, _, h.proceed hnone hnew hrun⟩

/-- A call that took transactions was put in the order with its last one. -/
theorem ret_pending {a : α} (h : Explains prog s₀ c s order pending)
    (hi : c.client i = .busy k true (.done a)) :
    ∃ pending', Explains prog s₀ (c.put i .idle c.cell (c.returned ++ [(k, a)]))
      s order pending' := by
  obtain ⟨before, after, rfl⟩ := List.append_of_mem ((h.mem_pending i k a).mpr hi)
  refine ⟨before ++ after, h.put h.replays ?_ ?_ ?_ ?_ (h.nodup.sublist (by simp))
    fun j k' a' => ?_⟩
  · rintro ⟨k', upd, next, hmid⟩
    rw [hi] at hmid
    cases hmid
  · intro k' upd next hx
    cases hx
  · intro k' rest hx
    cases hx
  · refine h.perm.trans ?_
    rw [List.append_assoc, List.map_append, List.map_append, List.map_cons]
    exact List.Perm.append_left _ List.perm_middle
  · have hnodup := h.nodup
    simp only [List.map_append, List.map_cons, List.nodup_append, List.nodup_cons, List.mem_map,
      List.mem_cons] at hnodup
    rw [Config.put_client_iff]
    by_cases hji : j = i
    · subst hji
      simp only [true_and, reduceCtorEq, ne_eq, not_true_eq_false, false_and, or_false, iff_false,
        List.mem_append, not_or]
      refine ⟨fun hb => ?_, fun ha => ?_⟩
      · exact hnodup.2.2 j ⟨_, hb, rfl⟩ j (Or.inl rfl) rfl
      · exact hnodup.2.1.1 ⟨_, ha, rfl⟩
    · rw [← h.mem_pending]
      simp [hji]

/-- A call without transactions joins the order as it returns. -/
theorem ret_fresh {a : α} (h : Explains prog s₀ c s order pending)
    (hi : c.client i = .busy k false (.done a)) :
    Explains prog s₀ (c.put i .idle c.cell (c.returned ++ [(k, a)]))
      s (order ++ [(k, a)]) pending := by
  have hnone : ¬ c.Midway i := by
    rintro ⟨k', upd, next, hmid⟩
    rw [hi] at hmid
    cases hmid
  have hprog : prog k = .done a := (h.fresh i k _ hi).symm
  have hsnoc := h.replays.snoc (k := k)
  rw [hprog] at hsnoc
  have hperm : (order ++ [(k, a)]).Perm (c.returned ++ [(k, a)] ++ pending.map Prod.snd) := by
    refine (List.perm_append_singleton _ _).trans ((h.perm.cons _).trans ?_)
    rw [List.append_assoc]
    exact List.perm_middle.symm
  refine h.put hsnoc hnone ?_ ?_ hperm h.nodup fun j k' a' => ?_
  · intro k' upd next hx
    cases hx
  · intro k' rest hx
    cases hx
  · rw [h.mem_pending, Config.put_client_iff]
    by_cases hji : j = i
    · subst hji
      simp [hi]
    · simp [hji]

end Explains

/-- The configuration is explained by some sequential order. -/
def Explained (prog : κ → Txn σ α) (s₀ : σ) (c : Config σ α κ ι) : Prop :=
  ∃ s order pending, Explains prog s₀ c s order pending

theorem Explained.next (h : Explained prog s₀ c) (hnext : Next prog c c') :
    Explained prog s₀ c' := by
  obtain ⟨s, order, pending, h⟩ := h
  obtain ⟨e, hstep, hundisturbed⟩ := hnext
  cases hstep with
  | call hidle => exact ⟨_, _, _, h.call hidle⟩
  | transact hi => exact h.transact hi hundisturbed
  | @ret i k begun a hi =>
      cases begun with
      | true =>
          obtain ⟨pending', h'⟩ := h.ret_pending hi
          exact ⟨_, _, _, h'⟩
      | false => exact ⟨_, _, _, h.ret_fresh hi⟩

omit [DecidableEq ι] in
theorem Explained.linearizable (h : Explained prog s₀ c) (hquiet : c.Quiet) :
    Linearizable prog s₀ c := by
  obtain ⟨s, order, pending, h⟩ := h
  have hpending : pending = [] := by
    refine List.eq_nil_iff_forall_not_mem.mpr fun ⟨i, k, a⟩ hmem => ?_
    have hi := (h.mem_pending i k a).mp hmem
    rw [hquiet i] at hi
    cases hi
  have hcell : c.cell = s := by
    refine h.cell fun i ⟨k, upd, next, hi⟩ => ?_
    rw [hquiet i] at hi
    cases hi
  refine ⟨order, ?_, hcell ▸ h.replays⟩
  simpa [hpending] using h.perm

/-- **Undisturbed calls are atomic.** Where no transaction is ever taken while another client is
between two of its own, the calls that have returned are those of a sequential order. -/
theorem linearizable_of_undisturbed {c : Config σ α κ ι}
    (hrun : Relation.ReflTransGen (Next prog) (Config.start s₀) c) (hquiet : c.Quiet) :
    Linearizable prog s₀ c := by
  refine Explained.linearizable ?_ hquiet
  clear hquiet
  induction hrun with
  | refl => exact ⟨_, _, _, explains_start s₀⟩
  | tail _ hnext ih => exact ih.next hnext

end Txn

end CSem
