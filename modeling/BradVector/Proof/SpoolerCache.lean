import BradVector.Library.Commands
import BradVector.TifaMoe

/-!
# The cache of the spooler

A call of `route` counts the experts it has chosen and then evicts those with the fewest hits. One
that has just been chosen for the first time has a single hit, so that it goes first when the others
have been chosen more often.
-/

namespace BradVector.Tifa

open CSem

/-! ### Counting -/

section Counting

variable {cache : List (Nat × Nat)} {i j n : Nat} {ranked : List Nat}

theorem hits_of_mem (hnodup : (cache.map Prod.fst).Nodup) (h : (i, n) ∈ cache) :
    hits cache i = n := by
  induction cache with
  | nil => cases h
  | cons e cache ih =>
      rw [List.map_cons, List.nodup_cons] at hnodup
      rcases List.mem_cons.mp h with rfl | h
      · simp [hits]
      · have hne : i ≠ e.1 := by
          rintro rfl
          exact hnodup.1 (List.mem_map.mpr ⟨_, h, rfl⟩)
        have hrest := ih hnodup.2 h
        unfold hits at hrest ⊢
        rwa [List.lookup_cons, beq_false_of_ne hne]

/-- A dictionary is its keys with their values. -/
theorem items_eq (hnodup : (cache.map Prod.fst).Nodup) :
    cache = (cache.map Prod.fst).map fun i => (i, hits cache i) := by
  rw [List.map_map]
  conv_lhs => rw [← List.map_id cache]
  apply List.map_congr_left
  rintro ⟨i, n⟩ he
  rw [Function.comp_apply, hits_of_mem hnodup he]
  rfl

theorem keys_addHit :
    (addHit cache i).map Prod.fst =
      if i ∈ cache.map Prod.fst then cache.map Prod.fst else cache.map Prod.fst ++ [i] := by
  unfold addHit
  split_ifs with hmem
  · rw [List.map_map]
    apply List.map_congr_left
    intro e _
    rw [Function.comp_apply]
    split_ifs with he
    · exact he.symm
    · rfl
  · rw [List.map_append]
    rfl

theorem nodup_addHit (hnodup : (cache.map Prod.fst).Nodup) :
    ((addHit cache i).map Prod.fst).Nodup := by
  rw [keys_addHit]
  split_ifs with hmem
  · exact hnodup
  · exact List.nodup_append.mpr ⟨hnodup, List.nodup_singleton i, fun a ha b hb h =>
      hmem (List.mem_singleton.mp hb ▸ h ▸ ha)⟩

theorem hits_eq_zero (h : i ∉ cache.map Prod.fst) : hits cache i = 0 := by
  have hnone : cache.lookup i = none := by
    rw [List.lookup_eq_none_iff]
    intro e he
    rw [bne_iff_ne]
    rintro rfl
    exact h (List.mem_map_of_mem he)
  rw [hits, hnone]
  rfl

theorem hits_addHit (hnodup : (cache.map Prod.fst).Nodup) (j : Nat) :
    hits (addHit cache i) j = hits cache j + if j = i then 1 else 0 := by
  by_cases hj : j ∈ (addHit cache i).map Prod.fst
  · obtain ⟨⟨k, n⟩, hmem, rfl⟩ := List.mem_map.mp hj
    rw [hits_of_mem (nodup_addHit hnodup) hmem]
    unfold addHit at hmem
    split_ifs at hmem with hi
    · obtain ⟨e, he, heq⟩ := List.mem_map.mp hmem
      by_cases hei : e.1 = i
      · rw [if_pos hei] at heq
        cases heq
        rw [if_pos rfl]
      · rw [if_neg hei] at heq
        subst heq
        rw [if_neg hei, hits_of_mem hnodup he, Nat.add_zero]
    · rcases List.mem_append.mp hmem with hold | hnew
      · have hne : k ≠ i := by
          rintro rfl
          exact hi (List.mem_map_of_mem hold)
        rw [if_neg hne, hits_of_mem hnodup hold, Nat.add_zero]
      · cases List.mem_singleton.mp hnew
        rw [if_pos rfl]
  · have hold : j ∉ cache.map Prod.fst ∧ j ≠ i := by
      rw [keys_addHit] at hj
      split_ifs at hj with hi
      · refine ⟨hj, ?_⟩
        rintro rfl
        exact hj hi
      · rw [List.mem_append, List.mem_singleton] at hj
        exact not_or.mp hj
    rw [hits_eq_zero hj, hits_eq_zero hold.1, if_neg hold.2]

/-- The experts of the cache with those chosen added to them, in the order of insertion. -/
def residentsWith (cache : List (Nat × Nat)) (ranked : List Nat) : List Nat :=
  cache.map Prod.fst ++ ranked.filter fun i => i ∉ cache.map Prod.fst

/-- The hits of an expert with those of the chosen ones counted. -/
def hitsWith (cache : List (Nat × Nat)) (ranked : List Nat) (i : Nat) : Nat :=
  hits cache i + if i ∈ ranked then 1 else 0

theorem residentsWith_cons (hi : i ∉ ranked) :
    residentsWith (addHit cache i) ranked = residentsWith cache (i :: ranked) := by
  unfold residentsWith
  rw [keys_addHit]
  by_cases hmem : i ∈ cache.map Prod.fst
  · rw [if_pos hmem, List.filter_cons_of_neg (by simpa using hmem)]
  · rw [if_neg hmem, List.filter_cons_of_pos (by simpa using hmem), List.append_assoc,
      List.singleton_append]
    congr 2
    apply List.filter_congr
    intro j hj
    have hne : j ≠ i := by
      rintro rfl
      exact hi hj
    simp [hne]

theorem hitsWith_cons (hnodup : (cache.map Prod.fst).Nodup) (hi : i ∉ ranked) (j : Nat) :
    hitsWith (addHit cache i) ranked j = hitsWith cache (i :: ranked) j := by
  unfold hitsWith
  rw [hits_addHit hnodup]
  by_cases hji : j = i
  · subst hji
    simp [hi]
  · simp [hji]

/-- **The cache with the chosen experts counted.** -/
theorem foldl_addHit (hnodup : (cache.map Prod.fst).Nodup) (hranked : ranked.Nodup) :
    ranked.foldl addHit cache =
      (residentsWith cache ranked).map fun i => (i, hitsWith cache ranked i) := by
  induction ranked generalizing cache with
  | nil =>
      unfold residentsWith hitsWith
      simpa using items_eq hnodup
  | cons i ranked ih =>
      obtain ⟨hi, hrest⟩ := List.nodup_cons.mp hranked
      rw [List.foldl_cons, ih (nodup_addHit hnodup) hrest, residentsWith_cons hi]
      apply List.map_congr_left
      intro j _
      rw [hitsWith_cons hnodup hi]

theorem keys_foldl_addHit (hnodup : (cache.map Prod.fst).Nodup) (hranked : ranked.Nodup) :
    (ranked.foldl addHit cache).map Prod.fst = residentsWith cache ranked := by
  rw [foldl_addHit hnodup hranked, List.map_map]
  exact List.map_id _

theorem nodup_residentsWith (hnodup : (cache.map Prod.fst).Nodup) (hranked : ranked.Nodup) :
    (residentsWith cache ranked).Nodup := by
  apply List.nodup_append.mpr
  refine ⟨hnodup, hranked.filter _, fun a ha b hb h => ?_⟩
  subst h
  have hout := (List.mem_filter.mp hb).2
  rw [decide_eq_true_eq] at hout
  exact hout ha

theorem mem_residentsWith (hi : i ∈ ranked) : i ∈ residentsWith cache ranked := by
  by_cases hmem : i ∈ cache.map Prod.fst
  · exact List.mem_append_left _ hmem
  · exact List.mem_append_right _ (List.mem_filter.mpr ⟨hi, by simpa using hmem⟩)

/-- The eviction takes the experts in the order of their hits. -/
theorem evictionOrder_map (f : Nat → Nat) (l : List Nat) :
    evictionOrder (l.map fun i => (i, f i)) = sortedBy f l := by
  have hsorted := List.map_insertionSort (fun a b => f a ≤ f b) (fun a b : Nat × Nat => a.2 ≤ b.2)
    (fun i => (i, f i)) l fun _ _ _ _ => Iff.rfl
  unfold evictionOrder sortedBy
  rw [← hsorted, List.map_map]
  exact List.map_id _

end Counting

/-! ### Evicting -/

section Evicting

variable {cache : List (Nat × Nat)} {order : List Nat} {capacity : Int}

theorem length_filter_ne {i : Nat} (hnodup : (cache.map Prod.fst).Nodup)
    (hi : i ∈ cache.map Prod.fst) :
    (cache.filter fun e => e.1 ≠ i).length + 1 = cache.length := by
  have hcount : cache.countP (fun e => e.1 = i) = 1 := by
    have hone : (cache.map Prod.fst).count i = 1 := List.count_eq_one_of_mem hnodup hi
    rw [List.count, List.countP_map] at hone
    rw [← hone]
    apply List.countP_congr
    intro e _
    simp
  have hsplit :=
    List.length_eq_countP_add_countP (fun e : Nat × Nat => decide (e.1 = i)) (l := cache)
  rw [hcount] at hsplit
  rw [← List.countP_eq_length_filter, hsplit, Nat.add_comm]
  congr 1
  apply List.countP_congr
  intro e _
  simp

theorem nodup_filter {p : Nat × Nat → Bool} (hnodup : (cache.map Prod.fst).Nodup) :
    ((cache.filter p).map Prod.fst).Nodup :=
  hnodup.sublist (List.filter_sublist.map Prod.fst)

/-- The loop evicts as many experts as there are too many. -/
theorem evict_eq (hcapacity : 0 ≤ capacity) (hnodup : (cache.map Prod.fst).Nodup)
    (horder : order.Nodup) (hmem : ∀ i ∈ order, i ∈ cache.map Prod.fst) :
    evict capacity order cache =
      cache.filter fun e => e.1 ∉ order.take (cache.length - capacity.toNat) := by
  induction order generalizing cache with
  | nil => simp [evict]
  | cons i order ih =>
      obtain ⟨hi, hrest⟩ := List.nodup_cons.mp horder
      have hlength := length_filter_ne hnodup (hmem i List.mem_cons_self)
      unfold evict
      split_ifs with hroom
      · rw [show cache.length - capacity.toNat = 0 by omega, List.take_zero]
        simp
      · rw [ih (nodup_filter hnodup) hrest]
        · rw [show cache.length - capacity.toNat =
              (cache.filter fun e => e.1 ≠ i).length - capacity.toNat + 1 by omega,
            List.take_succ_cons, List.filter_filter]
          apply List.filter_congr
          intro e _
          simp only [List.mem_cons, not_or, Bool.decide_and, ne_eq]
          exact Bool.and_comm _ _
        · intro j hj
          obtain ⟨e, he, rfl⟩ := List.mem_map.mp (hmem j (List.mem_cons_of_mem i hj))
          have hne : e.1 ≠ i := by
            intro h
            exact hi (h ▸ hj)
          exact List.mem_map_of_mem (List.mem_filter.mpr ⟨he, by simpa using hne⟩)

/-- The cache ends small enough, since all its experts are in the order. -/
theorem length_evict_le (hcapacity : 0 ≤ capacity) (hmem : ∀ e ∈ cache, e.1 ∈ order) :
    ((evict capacity order cache).length : Int) ≤ capacity := by
  induction order generalizing cache with
  | nil =>
      obtain rfl : cache = [] := List.eq_nil_iff_forall_not_mem.mpr fun e he => nomatch hmem e he
      exact hcapacity
  | cons i order ih =>
      unfold evict
      split_ifs with hroom
      · exact hroom
      · apply ih
        intro e he
        obtain ⟨hmem', hne⟩ := List.mem_filter.mp he
        rw [decide_eq_true_eq] at hne
        exact (List.mem_cons.mp (hmem e hmem')).resolve_left hne

end Evicting

/-! ### Calls -/

structure RouteCall where
  weights : List (List ℚ)
  tokenGate : Option (List (List ℚ))

/-- The experts a call chooses, none if it raises an exception. -/
def RouteCall.ranked (call : RouteCall) (topK : Int) : List Nat :=
  if call.weights.length = 0 then []
  else
    match routeScores call.weights call.tokenGate with
    | .error _ => []
    | .ok scores => nlargest topK.toNat (List.range call.weights.length) fun i => scores.getD i 0

namespace MoESpooler

/-- The spooler after a call; an exception leaves it as it was. -/
def next (s : MoESpooler) (call : RouteCall) : MoESpooler :=
  match s.route call.weights call.tokenGate with
  | .error _ => s
  | .ok (_, s') => s'

/-- After the call the cache is not too large, and it has the experts that the call returns as
active. -/
def KeepsActive (s : MoESpooler) (call : RouteCall) : Prop :=
  ((s.next call).cache.length : Int) ≤ s.cacheCapacity ∧
    ∀ r s', s.route call.weights call.tokenGate = .ok (r, s') →
      ∀ e ∈ r.active, e.1 ∈ s'.cache.map Prod.fst

/-- Behind every expert the call chooses come fewer than fill the cache: residents with more hits,
or with as many that were inserted later. -/
def Outlasts (s : MoESpooler) (call : RouteCall) : Prop :=
  let ranked := call.ranked s.topK
  let residents := residentsWith s.cache ranked
  ∀ i ∈ ranked, (residents.countP (Behind (hitsWith s.cache ranked) residents i ·) : Int) <
    s.cacheCapacity

instance (s : MoESpooler) (call : RouteCall) : Decidable (s.Outlasts call) :=
  inferInstanceAs (Decidable (∀ i ∈ _, _ < _))

structure Inv (s : MoESpooler) : Prop where
  nodup : (s.cache.map Prod.fst).Nodup
  length_le : (s.cache.length : Int) ≤ s.cacheCapacity

section

variable {s : MoESpooler} {call : RouteCall} {ranked : List Nat} {i : Nat}

theorem nodup_ranked (call : RouteCall) (topK : Int) : (call.ranked topK).Nodup := by
  unfold RouteCall.ranked
  split_ifs
  · exact List.nodup_nil
  · split
    · exact List.nodup_nil
    · exact ((sortedByDesc_perm _ _).nodup_iff.mpr List.nodup_range).sublist (List.take_sublist _ _)

/-- The cache that a call leaves when it has chosen `ranked`. -/
def settle (s : MoESpooler) (ranked : List Nat) : List (Nat × Nat) :=
  let cache := ranked.foldl addHit s.cache
  if s.cacheCapacity < cache.length then evict s.cacheCapacity (evictionOrder cache) cache
    else cache

theorem route_cases (s : MoESpooler) (call : RouteCall) :
    (∃ e, s.route call.weights call.tokenGate = .error e) ∧ call.ranked s.topK = [] ∨
      ∃ r, s.route call.weights call.tokenGate =
        .ok (r, { s with cache := s.settle (call.ranked s.topK) }) ∧
        r.active.map Prod.fst = call.ranked s.topK := by
  unfold route RouteCall.ranked
  by_cases hempty : call.weights.length = 0
  · rw [if_pos hempty, if_pos hempty]
    exact .inl ⟨⟨_, rfl⟩, rfl⟩
  rw [if_neg hempty, if_neg hempty]
  cases routeScores call.weights call.tokenGate with
  | error e => exact .inl ⟨⟨e, rfl⟩, rfl⟩
  | ok scores =>
      refine .inr ⟨_, rfl, ?_⟩
      rw [List.map_map]
      exact List.map_id _

theorem length_settle_le (hcapacity : 0 ≤ s.cacheCapacity) :
    ((s.settle ranked).length : Int) ≤ s.cacheCapacity := by
  unfold settle
  dsimp only
  split_ifs with hfull
  · apply length_evict_le hcapacity
    intro e he
    exact List.mem_map_of_mem ((sortedBy_perm _ _).mem_iff.mpr he)
  · exact not_lt.mp hfull

theorem settle_eq (hcapacity : 0 ≤ s.cacheCapacity) (hnodup : (s.cache.map Prod.fst).Nodup)
    (hranked : ranked.Nodup) :
    s.settle ranked = (ranked.foldl addHit s.cache).filter fun e =>
      e.1 ∉ (sortedBy (hitsWith s.cache ranked) (residentsWith s.cache ranked)).take
        ((residentsWith s.cache ranked).length - s.cacheCapacity.toNat) := by
  have hcount := foldl_addHit hnodup hranked
  have hkeys := keys_foldl_addHit hnodup hranked
  have horder : evictionOrder (ranked.foldl addHit s.cache) =
      sortedBy (hitsWith s.cache ranked) (residentsWith s.cache ranked) := by
    rw [hcount, evictionOrder_map]
  have hlength : (ranked.foldl addHit s.cache).length = (residentsWith s.cache ranked).length := by
    rw [hcount, List.length_map]
  have hresidents := nodup_residentsWith hnodup hranked
  have hperm := sortedBy_perm (hitsWith s.cache ranked) (residentsWith s.cache ranked)
  unfold settle
  dsimp only
  split_ifs with hfull
  · rw [horder, evict_eq hcapacity (hkeys ▸ hresidents) (hperm.nodup_iff.mpr hresidents), hlength]
    intro i hi
    rw [hkeys]
    exact hperm.mem_iff.mp hi
  · rw [show (residentsWith s.cache ranked).length - s.cacheCapacity.toNat = 0 by omega,
      List.take_zero]
    simp

/-- **A chosen expert stays** if fewer residents than fill the cache come behind it. -/
theorem mem_settle_iff (hcapacity : 0 ≤ s.cacheCapacity) (hnodup : (s.cache.map Prod.fst).Nodup)
    (hranked : ranked.Nodup) (hi : i ∈ ranked) :
    i ∈ (s.settle ranked).map Prod.fst ↔
      ((residentsWith s.cache ranked).countP
        (Behind (hitsWith s.cache ranked) (residentsWith s.cache ranked) i ·) : Int) <
          s.cacheCapacity := by
  have hresidents := nodup_residentsWith hnodup hranked
  have hmem : i ∈ residentsWith s.cache ranked := mem_residentsWith hi
  have htake : i ∈ (sortedBy (hitsWith s.cache ranked) (residentsWith s.cache ranked)).take
      ((residentsWith s.cache ranked).length - s.cacheCapacity.toNat) ↔ _ :=
    mem_take_sortedBy_iff hresidents hmem _
  have hcounted : i ∈ (ranked.foldl addHit s.cache).map Prod.fst := by
    rw [keys_foldl_addHit hnodup hranked]
    exact hmem
  have hlt : (residentsWith s.cache ranked).countP
      (Behind (hitsWith s.cache ranked) (residentsWith s.cache ranked) i ·) <
        (residentsWith s.cache ranked).length := by
    refine lt_of_le_of_ne List.countP_le_length fun hall => ?_
    have hself := List.countP_eq_length.mp hall i hmem
    rw [decide_eq_true_eq] at hself
    exact hself.asymm hself
  have hstays : i ∈ (s.settle ranked).map Prod.fst ↔
      i ∉ (sortedBy (hitsWith s.cache ranked) (residentsWith s.cache ranked)).take
        ((residentsWith s.cache ranked).length - s.cacheCapacity.toNat) := by
    rw [settle_eq hcapacity hnodup hranked, List.mem_map]
    constructor
    · rintro ⟨e, he, rfl⟩
      exact of_decide_eq_true (List.mem_filter.mp he).2
    · intro hout
      obtain ⟨e, he, rfl⟩ := List.mem_map.mp hcounted
      exact ⟨e, List.mem_filter.mpr ⟨he, decide_eq_true hout⟩, rfl⟩
  rw [hstays, htake]
  omega

theorem Inv.capacity_nonneg (hs : s.Inv) : 0 ≤ s.cacheCapacity :=
  le_trans (Int.natCast_nonneg _) hs.length_le

theorem cacheCapacity_next (s : MoESpooler) (call : RouteCall) :
    (s.next call).cacheCapacity = s.cacheCapacity := by
  unfold MoESpooler.next
  rcases s.route_cases call with ⟨⟨e, heq⟩, -⟩ | ⟨r, heq, -⟩
  · rw [heq]
  · rw [heq]

theorem Inv.next (hs : s.Inv) (call : RouteCall) : (s.next call).Inv := by
  unfold MoESpooler.next
  rcases s.route_cases call with ⟨⟨e, heq⟩, -⟩ | ⟨r, heq, -⟩
  · rw [heq]
    exact hs
  · rw [heq]
    refine ⟨?_, length_settle_le hs.capacity_nonneg⟩
    change ((s.settle (call.ranked s.topK)).map Prod.fst).Nodup
    rw [settle_eq hs.capacity_nonneg hs.nodup (nodup_ranked call s.topK)]
    apply nodup_filter
    rw [keys_foldl_addHit hs.nodup (nodup_ranked call s.topK)]
    exact nodup_residentsWith hs.nodup (nodup_ranked call s.topK)

/-- **One call.** -/
theorem keepsActive_iff (hs : s.Inv) (call : RouteCall) : s.KeepsActive call ↔ s.Outlasts call := by
  have hlength : ((s.next call).cache.length : Int) ≤ s.cacheCapacity := by
    rw [← s.cacheCapacity_next call]
    exact (hs.next call).length_le
  unfold KeepsActive Outlasts
  rw [and_iff_right hlength]
  have hstays (i : Nat) (hi : i ∈ call.ranked s.topK) :=
    mem_settle_iff hs.capacity_nonneg hs.nodup (nodup_ranked call s.topK) hi
  rcases s.route_cases call with ⟨⟨e, heq⟩, hnone⟩ | ⟨r, heq, hactive⟩
  · rw [heq]
    dsimp only
    rw [hnone]
    exact iff_of_true nofun nofun
  · rw [heq]
    constructor
    · intro hkept ranked residents i hi
      have hmem : i ∈ r.active.map Prod.fst := hactive ▸ hi
      obtain ⟨e, he, rfl⟩ := List.mem_map.mp hmem
      exact (hstays e.1 hi).mp (hkept r _ rfl e he)
    · rintro houtlasts r' s' ⟨⟩ e he
      have hi : e.1 ∈ call.ranked s.topK := hactive ▸ List.mem_map_of_mem he
      exact (hstays e.1 hi).mpr (houtlasts e.1 hi)

end

end MoESpooler

/-- **The cache of the spooler** holds the experts that a call activates throughout a run just when
each of them outlasts all but what the cache has room for. -/
theorem routes_keep_active_iff {topK capacity : Int} {s : MoESpooler}
    (hinit : MoESpooler.init topK capacity = .ok s) (hle : topK ≤ capacity)
    (calls : List RouteCall) :
    Throughout MoESpooler.next MoESpooler.KeepsActive s calls ↔
      Throughout MoESpooler.next MoESpooler.Outlasts s calls := by
  have hinv : s.Inv := by
    unfold MoESpooler.init at hinit
    split_ifs at hinit with hrange
    cases hinit
    refine ⟨List.nodup_nil, ?_⟩
    change (0 : Int) ≤ capacity
    omega
  apply throughout_iff (B := fun _ _ => True) (throughout_of_forall fun _ _ => trivial) hinv
  · intro s call hs _
    exact MoESpooler.keepsActive_iff hs call
  · intro s call hs _ _
    exact hs.next call

/-- Weights of three experts of which one is the largest. -/
def favouring (i : Nat) : RouteCall := ⟨(List.range 3).map fun j => [if j = i then 2 else 1], none⟩

/-- The third expert takes the place of the first, which has not been chosen more often. -/
theorem threeExperts_keep_active :
    Throughout MoESpooler.next MoESpooler.KeepsActive ⟨1, 2, []⟩
      [favouring 0, favouring 1, favouring 2] := by
  have houtlasts : Throughout MoESpooler.next MoESpooler.Outlasts ⟨1, 2, []⟩
      [favouring 0, favouring 1, favouring 2] := by decide +kernel
  exact (routes_keep_active_iff (rfl : MoESpooler.init 1 2 = .ok ⟨1, 2, []⟩)
    (by decide) _).mpr houtlasts

/-- Two experts that have been chosen twice each fill the cache, and a third one is evicted at
once. -/
theorem third_expert_not_resident :
    ¬ Throughout MoESpooler.next MoESpooler.KeepsActive ⟨1, 2, []⟩
      [favouring 0, favouring 0, favouring 1, favouring 1, favouring 2] := by
  rintro ⟨-, -, -, -, ⟨-, hkept⟩, -⟩
  have hresident := hkept _ _ rfl (2, 2) (by decide +kernel)
  revert hresident
  decide +kernel

end BradVector.Tifa
