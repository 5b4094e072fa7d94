import BradVector.Library.StableSort
import Mathlib.Algebra.Order.Field.Rat
import Mathlib.Algebra.Order.Group.Abs

/-!
# The expert spooler

`MoESpooler` of `_moe.py`, its weights and gate values being rationals. The cache is a Python
dictionary, a list of its items in the order they were inserted in.
-/

namespace BradVector.Tifa

open CSem

/-- The exceptions a call can raise. -/
inductive RouteError where
  | tifaError (message : String)
  | valueError
  | indexError
  deriving DecidableEq, Repr

structure MoESpooler where
  topK : Int
  cacheCapacity : Int
  cache : List (Nat × Nat)
  deriving DecidableEq, Repr

/-- `MoESpooler.__init__`. -/
def MoESpooler.init (topK cacheCapacity : Int) : Except RouteError MoESpooler :=
  if topK < 1 ∨ topK > 8 then .error (.tifaError "top_k must be in 1..8")
  else .ok ⟨topK, cacheCapacity, []⟩

/-- What `route` returns. -/
structure Routing where
  active : List (Nat × ℚ)
  cold : List (Nat × ℚ)
  residentExperts : List Nat

/-! ### Scores -/

/-- `float(max(abs(x) for x in row))`; there is no largest element of an empty row. -/
def rowMax (row : List ℚ) : Except RouteError ℚ :=
  match (row.map fun x => |x|).max? with
  | none => .error .valueError
  | some m => .ok m

/-- One step of the loop over the gate values of a token. -/
def gateStep (colmax : List ℚ) (jg : ℚ × Nat) : Except RouteError (List ℚ) :=
  match colmax[jg.2]? with
  | none => .error .indexError
  | some m => .ok (if m < |jg.1| then colmax.set jg.2 |jg.1| else colmax)

/-- The largest gate value of each expert. -/
def gateScores (experts : Nat) (tokenGate : List (List ℚ)) : Except RouteError (List ℚ) := do
  let _ ← tokenGate.mapM rowMax
  tokenGate.foldlM (fun colmax row => row.zipIdx.foldlM gateStep colmax) (List.replicate experts 0)

def routeScores (weights : List (List ℚ)) (tokenGate : Option (List (List ℚ))) :
    Except RouteError (List ℚ) :=
  match tokenGate with
  | some gate => gateScores weights.length gate
  | none => weights.mapM rowMax

/-! ### The cache -/

/-- `heapq.nlargest(n, iterable, key)`. -/
def nlargest {α β : Type} [LinearOrder β] (n : Nat) (l : List α) (key : α → β) : List α :=
  (sortedByDesc key l).take n

/-- `cache.get(i, 0)`. -/
def hits (cache : List (Nat × Nat)) (i : Nat) : Nat := (cache.lookup i).getD 0

/-- `cache[i] = cache.get(i, 0) + 1`. -/
def addHit (cache : List (Nat × Nat)) (i : Nat) : List (Nat × Nat) :=
  if i ∈ cache.map Prod.fst then
    cache.map fun e => if e.1 = i then (i, hits cache i + 1) else e
  else cache ++ [(i, hits cache i + 1)]

/-- The loop that deletes experts, in the order given, until the cache is small enough. -/
def evict (capacity : Int) : List Nat → List (Nat × Nat) → List (Nat × Nat)
  | [], cache => cache
  | i :: rest, cache =>
      if (cache.length : Int) ≤ capacity then cache
      else evict capacity rest (cache.filter fun e => e.1 ≠ i)

/-- The experts of the cache by their hits, the fewest first. -/
def evictionOrder (cache : List (Nat × Nat)) : List Nat := (sortedBy Prod.snd cache).map Prod.fst

/-- `MoESpooler.route`, an empty list standing for `None` as the weights. -/
def MoESpooler.route (s : MoESpooler) (weights : List (List ℚ))
    (tokenGate : Option (List (List ℚ))) :
    Except RouteError (Routing × MoESpooler) :=
  if weights.length = 0 then .error (.tifaError "expert matrix is empty")
  else do
    let experts := weights.length
    let scores ← routeScores weights tokenGate
    let score (i : Nat) := scores.getD i 0
    let ranked := nlargest s.topK.toNat (List.range experts) score
    let active := ranked.map fun i => (i, score i)
    let cold := ((List.range experts).filter fun i => i ∉ ranked).map fun i => (i, score i)
    let cache := ranked.foldl addHit s.cache
    let cache :=
      if s.cacheCapacity < cache.length then evict s.cacheCapacity (evictionOrder cache) cache
        else cache
    return (⟨active, cold, cache.map Prod.fst⟩, { s with cache })

end BradVector.Tifa
