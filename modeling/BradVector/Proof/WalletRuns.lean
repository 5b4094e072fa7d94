import BradVector.ReferenceServer
import Mathlib.Algebra.BigOperators.Group.List.Basic
import Mathlib.Algebra.Order.Group.Int
import Mathlib.Algebra.Ring.Int.Defs

/-!
# Transfers at the same time

Transfers settle the wallet and draw distinct identifiers as long as none of them writes a field of
the state that another one has read and not used yet.
-/

namespace BradVector.Bms

open CSem

def Txn.cost (txn : Txn) : Int := txn.amountCents + txn.feeCents

def Thread.isDone : Thread → Bool
  | .done _ => true
  | _ => false

/-- No request is in progress. -/
def Server.Quiet (c : Server) : Prop := ∀ t ∈ c.threads, t.isDone = true

instance (c : Server) : Decidable c.Quiet :=
  inferInstanceAs (Decidable (∀ t ∈ c.threads, t.isDone = true))

/-- The wallet is what the ledger leaves of the first balance, and the ledger's identifiers are
distinct. -/
structure State.Settled (s : State) : Prop where
  balance : s.walletCents = 150000 - (s.transactions.map Txn.cost).sum
  nonneg : 0 ≤ s.walletCents
  distinct : (s.transactions.map Txn.id).Nodup

/-- The thread has read the balance that it is going to write back reduced. -/
def Thread.holdsWallet : Thread → Bool
  | .writeWallet _ _ => true
  | _ => false

/-- The thread has read `txn_seq`, and has not read its identifier yet. -/
def Thread.holdsSeq : Thread → Bool
  | .writeSeq _ _ | .readId _ => true
  | _ => false

/-- The balance still covers what the thread is about to subtract, and it writes no field that
another thread holds. -/
def Thread.Exclusive (t : Thread) (s : State) (others : List Thread) : Prop :=
  match t with
  | .readWallet t => t.cost ≤ s.walletCents
  | .writeWallet _ _ => ∀ o ∈ others, ¬ o.holdsWallet
  | .writeSeq _ _ => ∀ o ∈ others, ¬ o.holdsSeq
  | _ => True

instance (t : Thread) (s : State) (others : List Thread) : Decidable (t.Exclusive s others) :=
  match t with
  | .readWallet t => inferInstanceAs (Decidable (t.cost ≤ s.walletCents))
  | .writeWallet _ _ => inferInstanceAs (Decidable (∀ o ∈ others, ¬ o.holdsWallet))
  | .writeSeq _ _ => inferInstanceAs (Decidable (∀ o ∈ others, ¬ o.holdsSeq))
  | .received _ | .check _ | .readSeq _ | .readId _ | .readBalance _ _ | .append _ | .done _ =>
    .isTrue trivial

def Server.Undisturbed (c : Server) : Event → Prop
  | .accept _ => True
  | .advance k _ => ∀ t ∈ c.threads[k]?, t.Exclusive c.state (c.threads.eraseIdx k)

instance (c : Server) (e : Event) : Decidable (c.Undisturbed e) :=
  match e with
  | .accept _ => .isTrue trivial
  | .advance k _ =>
      inferInstanceAs (Decidable (∀ t ∈ c.threads[k]?, t.Exclusive c.state (c.threads.eraseIdx k)))

/-! ### What a thread has taken -/

/-- What has left the wallet for a transaction that is not in the ledger yet. -/
def Thread.paid : Thread → Int
  | .readSeq t | .writeSeq t _ | .readId t | .readBalance t _ => t.cost
  | .append txn => txn.cost
  | _ => 0

/-- The identifier of such a transaction. -/
def Thread.ids : Thread → List String
  | .readBalance _ id => [id]
  | .append txn => [txn.id]
  | _ => []

/-- The thread has written `txn_seq` and is to read it back. -/
def Thread.awaitsId : Thread → Bool
  | .readId _ => true
  | _ => false

/-- All identifiers that have been drawn. -/
def State.drawn (s : State) (threads : List Thread) : List String :=
  s.transactions.map Txn.id ++ threads.flatMap Thread.ids

/-- What holds of the state and the threads between undisturbed steps. -/
structure Consistent (s : State) (threads : List Thread) : Prop where
  balance :
    s.walletCents + (s.transactions.map Txn.cost).sum + (threads.map Thread.paid).sum = 150000
  nonneg : 0 ≤ s.walletCents
  wallet : ∀ t w, .writeWallet t w ∈ threads → w = s.walletCents ∧ t.cost ≤ w
  seq : ∀ t n, .writeSeq t n ∈ threads → n = s.txnSeq
  awaiting : threads.countP Thread.awaitsId ≤ 1
  distinct : (s.drawn threads).Nodup
  drawn : ∀ id ∈ s.drawn threads, ∃ n, n + threads.countP Thread.awaitsId ≤ s.txnSeq ∧ id = txnId n

variable {s : State} {t : Thread} {threads threads' others : List Thread}

theorem Consistent.perm (h : Consistent s threads) (hperm : threads.Perm threads') :
    Consistent s threads' := by
  have hdrawn : (s.drawn threads).Perm (s.drawn threads') :=
    List.Perm.append_left _ (hperm.flatMap_right _)
  refine ⟨?_, h.nonneg, fun t w hmem => h.wallet t w (hperm.mem_iff.mpr hmem),
    fun t n hmem => h.seq t n (hperm.mem_iff.mpr hmem), ?_, hdrawn.nodup_iff.mp h.distinct, ?_⟩
  · rw [← (hperm.map Thread.paid).sum_eq]
    exact h.balance
  · rw [← hperm.countP_eq]
    exact h.awaiting
  · rw [← hperm.countP_eq]
    intro id hid
    exact h.drawn id (hdrawn.mem_iff.mpr hid)

theorem txnId_injective {m n : Nat} (h : txnId m = txnId n) : m = n := by
  unfold txnId at h
  have hdigits := String.ofList_injective (String.append_right_inj _ |>.mp h)
  have hvalue (k : Nat) : Nat.ofDigitChars 10 ((Nat.toDigits 10 k).leftpad 6 '0') 0 = k := by
    unfold List.leftpad
    rw [Nat.ofDigitChars_append, Nat.ofDigitChars_replicate_zero, Nat.mul_zero,
      Nat.ofDigitChars_ten_toDigits]
  rw [← hvalue m, ← hvalue n, hdigits]

/-! ### What a step keeps -/

/-- A step of a thread that reads only, and what it has read is what the state holds. -/
theorem Consistent.keep {t' : Thread} (h : Consistent s (t :: others)) (hpaid : t'.paid = t.paid)
    (hids : t'.ids = t.ids) (hawaits : t'.awaitsId = t.awaitsId)
    (hwallet : ∀ x w, t' = .writeWallet x w → w = s.walletCents ∧ x.cost ≤ w)
    (hseq : ∀ x n, t' = .writeSeq x n → n = s.txnSeq) : Consistent s (t' :: others) := by
  have hdrawn : s.drawn (t' :: others) = s.drawn (t :: others) := by
    simp only [State.drawn, List.flatMap_cons, hids]
  have hcount : (t' :: others).countP Thread.awaitsId = (t :: others).countP Thread.awaitsId := by
    simp only [List.countP_cons, hawaits]
  refine ⟨?_, h.nonneg, ?_, ?_, hcount ▸ h.awaiting, hdrawn ▸ h.distinct, hdrawn ▸ hcount ▸ h.drawn⟩
  · have hbalance := h.balance
    rw [List.map_cons, List.sum_cons] at hbalance ⊢
    rw [hpaid]
    exact hbalance
  · intro x w hmem
    obtain heq | hmem := List.mem_cons.mp hmem
    · exact hwallet x w heq.symm
    · exact h.wallet x w (List.mem_cons_of_mem t hmem)
  · intro x n hmem
    obtain heq | hmem := List.mem_cons.mp hmem
    · exact hseq x n heq.symm
    · exact h.seq x n (List.mem_cons_of_mem t hmem)

/-- The wallet still holds what the thread has read, and no other thread has read it. -/
theorem Consistent.writeWallet {x : Transfer} {w : Int}
    (h : Consistent s (.writeWallet x w :: others)) (hothers : ∀ o ∈ others, ¬ o.holdsWallet) :
    Consistent { s with walletCents := w - x.cost } (.readSeq x :: others) := by
  obtain ⟨hw, hcost⟩ := h.wallet x w List.mem_cons_self
  have hbalance := h.balance
  rw [List.map_cons, List.sum_cons] at hbalance
  refine ⟨?_, Int.sub_nonneg_of_le hcost, ?_, ?_, h.awaiting, h.distinct, h.drawn⟩
  · rw [List.map_cons, List.sum_cons]
    simp only [Thread.paid] at hbalance ⊢
    omega
  · intro x' w' hmem
    obtain heq | hmem := List.mem_cons.mp hmem
    · cases heq
    · exact absurd rfl (hothers _ hmem)
  · intro x' n hmem
    obtain heq | hmem := List.mem_cons.mp hmem
    · cases heq
    · exact h.seq x' n (List.mem_cons_of_mem _ hmem)

theorem countP_awaitsId_eq_zero (hothers : ∀ o ∈ others, ¬ o.holdsSeq) :
    others.countP Thread.awaitsId = 0 := by
  rw [List.countP_eq_zero]
  intro o ho hawaits
  cases o
  case readId x => exact hothers _ ho rfl
  all_goals cases hawaits

/-- The number goes up, so that the one to be read is new. -/
theorem Consistent.writeSeq {x : Transfer} {n : Nat} (h : Consistent s (.writeSeq x n :: others))
    (hothers : ∀ o ∈ others, ¬ o.holdsSeq) :
    Consistent { s with txnSeq := n + 1 } (.readId x :: others) := by
  have hn : n = s.txnSeq := h.seq x n List.mem_cons_self
  have hnone := countP_awaitsId_eq_zero hothers
  have hone : (Thread.readId x :: others).countP Thread.awaitsId = 1 := by
    rw [List.countP_cons, hnone]
    rfl
  refine ⟨h.balance, h.nonneg, ?_, ?_, hone.le, h.distinct, ?_⟩
  · intro x' w hmem
    obtain heq | hmem := List.mem_cons.mp hmem
    · cases heq
    · exact h.wallet x' w (List.mem_cons_of_mem _ hmem)
  · intro x' n' hmem
    obtain heq | hmem := List.mem_cons.mp hmem
    · cases heq
    · exact absurd rfl (hothers _ hmem)
  · intro id hid
    obtain ⟨k, hk, rfl⟩ := h.drawn id hid
    refine ⟨k, ?_, rfl⟩
    rw [hone]
    dsimp only
    omega

/-- No identifier drawn so far is the one that the thread reads. -/
theorem Consistent.readId {x : Transfer} (h : Consistent s (.readId x :: others)) :
    Consistent s (.readBalance x (txnId s.txnSeq) :: others) := by
  have hcount : (Thread.readId x :: others).countP Thread.awaitsId =
      others.countP Thread.awaitsId + 1 := by
    rw [List.countP_cons]
    rfl
  have hnone : others.countP Thread.awaitsId = 0 := by
    have hle := h.awaiting
    omega
  have hzero : (Thread.readBalance x (txnId s.txnSeq) :: others).countP Thread.awaitsId = 0 := by
    rw [List.countP_cons, hnone]
    rfl
  have hperm : (s.drawn (.readBalance x (txnId s.txnSeq) :: others)).Perm
      (txnId s.txnSeq :: s.drawn (.readId x :: others)) := List.perm_middle
  have hdrawn : ∀ id ∈ s.drawn (.readId x :: others), ∃ n, n < s.txnSeq ∧ id = txnId n := by
    intro id hid
    obtain ⟨n, hn, rfl⟩ := h.drawn id hid
    rw [hcount] at hn
    exact ⟨n, by omega, rfl⟩
  refine ⟨h.balance, h.nonneg, ?_, ?_, hzero ▸ Nat.zero_le 1, ?_, ?_⟩
  · intro x' w hmem
    obtain heq | hmem := List.mem_cons.mp hmem
    · cases heq
    · exact h.wallet x' w (List.mem_cons_of_mem _ hmem)
  · intro x' n hmem
    obtain heq | hmem := List.mem_cons.mp hmem
    · cases heq
    · exact h.seq x' n (List.mem_cons_of_mem _ hmem)
  · rw [hperm.nodup_iff, List.nodup_cons]
    refine ⟨?_, h.distinct⟩
    intro hmem
    obtain ⟨n, hn, heq⟩ := hdrawn _ hmem
    exact absurd (txnId_injective heq).symm (Nat.ne_of_lt hn)
  · intro id hid
    rw [hzero]
    obtain rfl | hid := List.mem_cons.mp (hperm.mem_iff.mp hid)
    · exact ⟨s.txnSeq, le_rfl, rfl⟩
    · obtain ⟨n, hn, rfl⟩ := hdrawn id hid
      exact ⟨n, hn.le, rfl⟩

/-- What the thread has paid is in the ledger. -/
theorem Consistent.append {txn : Txn} (h : Consistent s (.append txn :: others)) :
    Consistent { s with transactions := s.transactions ++ [txn] }
      (.done (.created txn) :: others) := by
  have hdrawn : State.drawn { s with transactions := s.transactions ++ [txn] }
      (.done (.created txn) :: others) = s.drawn (.append txn :: others) := by
    simp only [State.drawn, List.map_append, List.map_cons, List.map_nil, List.flatMap_cons,
      Thread.ids, List.nil_append, List.append_assoc]
  refine ⟨?_, h.nonneg, ?_, ?_, h.awaiting, hdrawn ▸ h.distinct, hdrawn ▸ h.drawn⟩
  · rw [← h.balance]
    simp only [List.map_append, List.map_cons, List.map_nil, List.sum_append, List.sum_cons,
      List.sum_nil, Thread.paid]
    omega
  · intro x w hmem
    obtain heq | hmem := List.mem_cons.mp hmem
    · cases heq
    · exact h.wallet x w (List.mem_cons_of_mem _ hmem)
  · intro x n hmem
    obtain heq | hmem := List.mem_cons.mp hmem
    · cases heq
    · exact h.seq x n (List.mem_cons_of_mem _ hmem)

theorem Consistent.serve {now : String} (h : Consistent s (t :: others))
    (hexcl : t.Exclusive s others) :
    Consistent (serve now s t).1 ((serve now s t).2 :: others) := by
  cases t with
  | received req =>
      simp only [Bms.serve]
      cases parseTransfer req with
      | error r => exact h.keep rfl rfl rfl nofun nofun
      | ok x => exact h.keep rfl rfl rfl nofun nofun
  | check x =>
      simp only [Bms.serve]
      split_ifs
      · exact h.keep rfl rfl rfl nofun nofun
      · exact h.keep rfl rfl rfl nofun nofun
  | readWallet x =>
      refine h.keep rfl rfl rfl ?_ nofun
      rintro x' w ⟨⟩
      exact ⟨rfl, hexcl⟩
  | writeWallet x w => exact h.writeWallet hexcl
  | readSeq x =>
      refine h.keep rfl rfl rfl nofun ?_
      rintro x' n ⟨⟩
      rfl
  | writeSeq x n => exact h.writeSeq hexcl
  | readId x => exact h.readId
  | readBalance x id => exact h.keep rfl rfl rfl nofun nofun
  | append txn => exact h.append
  | done r => exact h.keep rfl rfl rfl nofun nofun

/-! ### Runs -/

theorem consistent_start : Consistent State.init [] :=
  ⟨rfl, by decide, nofun, nofun, Nat.zero_le 1, List.nodup_nil, nofun⟩

/-- A request that arrives. -/
theorem Consistent.accept (h : Consistent s threads) (req : Request) :
    Consistent s (.received req :: threads) := by
  refine ⟨?_, h.nonneg, ?_, ?_, h.awaiting, h.distinct, h.drawn⟩
  · rw [List.map_cons, List.sum_cons]
    change _ + (0 + (threads.map Thread.paid).sum) = 150000
    rw [zero_add]
    exact h.balance
  · intro x w hmem
    obtain heq | hmem := List.mem_cons.mp hmem
    · cases heq
    · exact h.wallet x w hmem
  · intro x n hmem
    obtain heq | hmem := List.mem_cons.mp hmem
    · cases heq
    · exact h.seq x n hmem

theorem Consistent.next {c : Server} (h : Consistent c.state c.threads) (e : Event)
    (hundisturbed : c.Undisturbed e) : Consistent (c.next e).state (c.next e).threads := by
  cases e with
  | accept req => exact (h.accept req).perm (List.perm_append_singleton _ _).symm
  | advance k now =>
      unfold Server.next
      dsimp only
      cases hk : c.threads[k]? with
      | none => exact h
      | some t =>
          obtain ⟨hlt, rfl⟩ := List.getElem?_eq_some_iff.mp hk
          have hbefore := h.perm (List.getElem_cons_eraseIdx_perm hlt).symm
          exact (hbefore.serve (hundisturbed _ hk)).perm (List.set_perm_cons_eraseIdx hlt _).symm

theorem Consistent.settled {c : Server} (h : Consistent c.state c.threads) (hquiet : c.Quiet) :
    c.state.Settled := by
  have hpaid : ∀ x ∈ c.threads.map Thread.paid, x = 0 := by
    intro x hx
    obtain ⟨t, ht, rfl⟩ := List.mem_map.mp hx
    have hdone := hquiet t ht
    cases t
    case done r => rfl
    all_goals cases hdone
  have hbalance := h.balance
  rw [List.sum_eq_zero hpaid] at hbalance
  exact ⟨by omega, h.nonneg, h.distinct.sublist (List.sublist_append_left _ _)⟩

/-- **Undisturbed transfers.** In every run in which no thread writes a field that another one
holds, the ledger accounts for the wallet whenever no request is in progress. -/
theorem run_settled (events : List Event)
    (hundisturbed : Throughout Server.next Server.Undisturbed .start events)
    (hquiet : (Server.run events).Quiet) : (Server.run events).state.Settled := by
  refine Consistent.settled ?_ hquiet
  exact hundisturbed.foldl (I := fun c : Server => Consistent c.state c.threads) consistent_start
    fun c e h he => h.next e he

/-- A transfer of `amt`. -/
def transferRequest (amt : Int) : Request :=
  ⟨some "Bearer bms-demo-token", some (.object [("to", .str "friend@brad.dev"),
    ("amount_cents", .int amt)])⟩

/-- Two requests that arrive, and the threads that take the steps. -/
def twoTransfers (amt : Int) (schedule : List Nat) : List Event :=
  .accept (transferRequest amt) :: .accept (transferRequest amt) ::
    schedule.map fun k => .advance k "1970-01-01T00:00:00Z"

/-- The second transfer reads the wallet after the first has written it. -/
def overlapping : List Nat := [0, 0, 1, 0, 0, 1, 1, 0, 0, 0, 1, 1, 1, 0, 1, 0, 1, 1]

theorem overlapping_settled : (Server.run (twoTransfers 500 overlapping)).state.Settled :=
  run_settled _ (by decide) (by decide)

/-- Both transfers pass the check before either of them writes the wallet. -/
theorem not_forall_run_settled :
    ¬ ∀ events, (Server.run events).Quiet → (Server.run events).state.Settled := by
  intro h
  have hsettled :=
    h (twoTransfers 100000 [0, 0, 1, 1, 0, 0, 0, 0, 0, 0, 0, 1, 1, 1, 1, 1, 1, 1]) (by decide)
  have hwallet : (Server.run (twoTransfers 100000
      [0, 0, 1, 1, 0, 0, 0, 0, 0, 0, 0, 1, 1, 1, 1, 1, 1, 1])).state.walletCents = -50060 := by
    decide
  have hnonneg := hsettled.nonneg
  rw [hwallet] at hnonneg
  omega

end BradVector.Bms
