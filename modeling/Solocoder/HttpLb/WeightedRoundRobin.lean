import Mathlib.Logic.Function.Basic

/-!
# The weighted round robin of `internal/httplb`

The addresses of the servers are different and stand for the pointers to them.
-/

namespace Solocoder.HttpLb

structure BackendServer where
  address : String
  weight : Int64
  healthy : Bool

structure WeightedRoundRobin where
  weighted : List BackendServer
  currentWeight : String → Int64

/-- None if the lengths differ, a server is given twice or a weight is not positive. -/
def newWeightedRoundRobin (servers : List String) (weights : List Int64) :
    Option WeightedRoundRobin :=
  if servers.length = weights.length ∧ servers.Nodup ∧ weights.all (0 < ·) then
    some ⟨(servers.zip weights).map fun p => ⟨p.1, p.2, true⟩, fun _ => 0⟩
  else none

/-- The loop of `Next`, with the current weights and the best server so far. -/
def choose (healthy : List BackendServer) (currentWeight : String → Int64) :
    (String → Int64) × Option BackendServer :=
  healthy.foldl (fun (current, best) ws =>
    let current := Function.update current ws.address (current ws.address + ws.weight)
    (current, if best.all fun b => current ws.address > current b.address then some ws else best))
    (currentWeight, none)

def WeightedRoundRobin.next (wrr : WeightedRoundRobin) :
    Option (BackendServer × WeightedRoundRobin) :=
  let healthy := wrr.weighted.filter (·.healthy)
  let totalWeight := (healthy.map (·.weight)).sum
  let (current, best) := choose healthy wrr.currentWeight
  best.map fun best => (best, { wrr with
    currentWeight := Function.update current best.address (current best.address - totalWeight) })

/-- Calls of `Next`, one after the other. -/
def WeightedRoundRobin.calls (wrr : WeightedRoundRobin) :
    Nat → Option (List BackendServer × WeightedRoundRobin)
  | 0 => some ([], wrr)
  | n + 1 => do
    let (servers, wrr) ← wrr.calls n
    let (server, wrr) ← wrr.next
    return (servers ++ [server], wrr)

end Solocoder.HttpLb
