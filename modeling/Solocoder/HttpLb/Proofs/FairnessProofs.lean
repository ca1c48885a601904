import Mathlib.Algebra.Order.BigOperators.Group.List
import Mathlib.Data.List.Induction
import Mathlib.Data.List.Nodup
import Mathlib.Tactic.Linarith
import Mathlib.Tactic.Ring
import Solocoder.HttpLb.WeightedRoundRobin

/-!
# The fairness of the weighted round robin

The current weights sum up to zero and none falls to minus the total weight, so in a round no server
is chosen more often than its weight, and hence none less often.
-/

namespace Solocoder.HttpLb

open List Function WeightedRoundRobin

variable {S : List BackendServer} {cw : String → Int64}

/-- The sum of the weights. -/
def total (S : List BackendServer) : Int := (S.map (·.weight.toInt)).sum

/-- The servers of a balancer, all healthy, whose current weights do not overflow. -/
structure Servers (S : List BackendServer) : Prop where
  nodup : (S.map (·.address)).Nodup
  pos : ∀ s ∈ S, 0 < s.weight.toInt
  healthy : ∀ s ∈ S, s.healthy = true
  ne_nil : S ≠ []
  fits : S.length * total S < 2 ^ 63

theorem choose_spec (hnodup : (S.map (·.address)).Nodup) (cw : String → Int64) :
    (∀ s ∈ S, (choose S cw).1 s.address = cw s.address + s.weight) ∧
      (∀ a ∉ S.map (·.address), (choose S cw).1 a = cw a) ∧
      (S ≠ [] → ∃ b ∈ S, (choose S cw).2 = some b ∧
        ∀ s ∈ S, (choose S cw).1 s.address ≤ (choose S cw).1 b.address) := by
  induction S using reverseRecOn with
  | nil => exact ⟨nofun, fun _ _ => rfl, fun h => absurd rfl h⟩
  | append_singleton S s ih =>
    rw [map_append, nodup_append] at hnodup
    have hnot : s.address ∉ S.map (·.address) := fun h => hnodup.2.2 _ h _ (by simp) rfl
    obtain ⟨hraised, hkept, hbest⟩ := ih hnodup.1
    have hcur : (choose (S ++ [s]) cw).1 = update (choose S cw).1 s.address
        (cw s.address + s.weight) := by
      rw [← hkept _ hnot, choose, foldl_append]
      rfl
    have hold : ∀ x ∈ S, (choose (S ++ [s]) cw).1 x.address = (choose S cw).1 x.address := by
      intro x hx
      rw [hcur, update_of_ne]
      exact fun heq => hnot (heq ▸ mem_map_of_mem hx)
    have htwo : (choose (S ++ [s]) cw).2 = if (choose S cw).2.all fun b =>
        (choose (S ++ [s]) cw).1 s.address > (choose (S ++ [s]) cw).1 b.address then some s
        else (choose S cw).2 := by
      rw [choose, foldl_append]
      rfl
    simp only [mem_append, mem_singleton]
    refine ⟨?_, fun a ha => ?_, fun _ => ?_⟩
    · rintro x (hx | rfl)
      · rw [hold x hx, hraised x hx]
      · simp [hcur]
    · rw [map_append, mem_append, not_or] at ha
      rw [hcur, update_of_ne (by simpa using ha.2), hkept a ha.1]
    · by_cases hS : S = []
      · subst hS
        exact ⟨s, by simp, rfl, by simp⟩
      obtain ⟨b, hb, hsome, hmax⟩ := hbest hS
      rw [htwo, hsome]
      by_cases hlt : (choose (S ++ [s]) cw).1 s.address > (choose (S ++ [s]) cw).1 b.address
      · refine ⟨s, .inr rfl, by simp [hlt], ?_⟩
        rintro x (hx | rfl)
        · rw [hold x hx]
          exact Int64.le_trans (hmax x hx) (hold b hb ▸ Int64.le_of_lt hlt)
        · exact Int64.le_refl _
      · refine ⟨b, .inl hb, by simp [hlt], ?_⟩
        rintro x (hx | rfl)
        · rw [hold x hx, hold b hb]
          exact hmax x hx
        · exact Int64.not_lt.mp hlt

/-- The current weights of a run. -/
structure Balanced (S : List BackendServer) (cw : String → Int64) : Prop where
  sum : (S.map fun s => (cw s.address).toInt).sum = 0
  low : ∀ s ∈ S, -total S < (cw s.address).toInt

theorem toInt_add_of_fits {a b : Int64} (hle : -2 ^ 63 ≤ a.toInt + b.toInt)
    (hlt : a.toInt + b.toInt < 2 ^ 63) : (a + b).toInt = a.toInt + b.toInt := by
  rw [Int64.toInt_add, Int.bmod_eq_of_le hle hlt]

theorem Balanced.sum_raised (h : Balanced S cw) :
    (S.map fun s => (cw s.address).toInt + s.weight.toInt).sum = total S := by
  rw [sum_map_add, h.sum, zero_add, total]

/-- The current weights are those of a new balancer. -/
def AtRest (S : List BackendServer) (cw : String → Int64) : Prop :=
  ∀ s ∈ S, (cw s.address).toInt = 0

section
variable (hS : Servers S)
include hS

theorem total_pos : 0 < total S :=
  sum_pos _ (by simpa using hS.pos) (by simpa using hS.ne_nil)

theorem total_lt : total S < 2 ^ 63 := by
  have hfits := hS.fits
  have hlen : (1 : Int) ≤ S.length := mod_cast length_pos_iff.mpr hS.ne_nil
  nlinarith [total_pos hS]

theorem toInt_sum : (S.map BackendServer.weight).sum.toInt = total S := by
  have hmod : ∀ l : List BackendServer,
      (l.map BackendServer.weight).sum.toInt = (total l).bmod (2 ^ 64) := by
    intro l
    induction l with
    | nil => rfl
    | cons s l ih =>
      simp only [total, map_cons, sum_cons, Int64.toInt_add] at ih ⊢
      rw [ih, Int.add_bmod_bmod]
  rw [hmod, Int.bmod_eq_of_le]
  · have := total_pos hS
    omega
  · exact total_lt hS

theorem raised_fits (h : Balanced S cw) {s : BackendServer} (hs : s ∈ S) :
    (cw s.address + s.weight).toInt = (cw s.address).toInt + s.weight.toInt := by
  have hsum : (S.map fun s => (cw s.address).toInt + total S).sum = S.length * total S := by
    rw [sum_map_add, h.sum]
    simp
  have hle : (cw s.address).toInt + total S ≤ S.length * total S := by
    rw [← hsum]
    apply single_le_sum
    · intro x hx
      obtain ⟨t, ht, rfl⟩ := mem_map.mp hx
      have := h.low t ht
      omega
    · exact mem_map_of_mem hs
  have hweight : s.weight.toInt ≤ total S := by
    apply single_le_sum
    · intro x hx
      obtain ⟨t, ht, rfl⟩ := mem_map.mp hx
      exact (hS.pos t ht).le
    · exact mem_map_of_mem hs
  have hfits := hS.fits
  have hlt := total_lt hS
  have hpos := hS.pos s hs
  have hlow := h.low s hs
  exact toInt_add_of_fits (by omega) (by omega)

variable {b : BackendServer}

theorem best_pos (h : Balanced S cw) (hmax : ∀ s ∈ S, (cw s.address).toInt + s.weight.toInt ≤
      (cw b.address).toInt + b.weight.toInt) :
    0 < (cw b.address).toInt + b.weight.toInt := by
  by_contra hle
  have hsum : (S.map fun s => (cw s.address).toInt + s.weight.toInt).sum ≤ _ • 0 :=
    sum_le_card_nsmul _ 0 (by
      intro x hx
      obtain ⟨s, hs, rfl⟩ := mem_map.mp hx
      exact (hmax s hs).trans (not_lt.mp hle))
  have hpos := total_pos hS
  rw [nsmul_zero, h.sum_raised] at hsum
  omega

/-- One call: the weights of the others rise, that of the chosen server sinks. -/
theorem next_spec (h : Balanced S cw) :
    ∃ b ∈ S, ∃ cw', next ⟨S, cw⟩ = some (b, ⟨S, cw'⟩) ∧
      0 < (cw b.address).toInt + b.weight.toInt ∧
      ∀ s ∈ S, (cw' s.address).toInt = (cw s.address).toInt + s.weight.toInt -
        if s.address = b.address then total S else 0 := by
  obtain ⟨hraised, -, hbest⟩ := choose_spec hS.nodup cw
  obtain ⟨b, hb, hsome, hmax⟩ := hbest hS.ne_nil
  have hfilter : S.filter (·.healthy) = S := filter_eq_self.mpr hS.healthy
  have hpos : 0 < (cw b.address).toInt + b.weight.toInt := by
    refine best_pos hS h fun s hs => ?_
    rw [← raised_fits hS h hs, ← raised_fits hS h hb, ← hraised s hs, ← hraised b hb]
    exact Int64.le_iff_toInt_le.mp (hmax s hs)
  refine ⟨b, hb, update (choose S cw).1 b.address
    ((choose S cw).1 b.address - (S.map (·.weight)).sum), ?_, hpos, fun s hs => ?_⟩
  · simp [WeightedRoundRobin.next, hfilter, hsome]
  · have hexact := raised_fits hS h hs
    by_cases heq : s.address = b.address
    · cases inj_on_of_nodup_map hS.nodup hs hb heq
      have htotal := total_pos hS
      have hlt := total_lt hS
      have hbound := Int64.toInt_lt (cw b.address + b.weight)
      rw [update_self, if_pos rfl, hraised b hb, Int64.toInt_sub, hexact, toInt_sum hS]
      exact Int.bmod_eq_of_le (by omega) (by omega)
    · rw [update_of_ne heq, hraised s hs, if_neg heq, sub_zero, hexact]

theorem sum_chosen (hb : b ∈ S) (c : Int) :
    (S.map fun s => if s.address = b.address then c else 0).sum = c := by
  have hsum := sum_map_ite_eq (S.map (·.address)) (fun _ => c) (fun _ => 0) b.address
  rw [map_map, count_eq_one_of_mem hS.nodup (mem_map_of_mem hb)] at hsum
  exact hsum.trans (by simp [comp_def])

theorem Balanced.next {cw' : String → Int64} (hb : b ∈ S)
    (h : Balanced S cw) (hpos : 0 < (cw b.address).toInt + b.weight.toInt)
    (hcw : ∀ s ∈ S, (cw' s.address).toInt = (cw s.address).toInt + s.weight.toInt -
      if s.address = b.address then total S else 0) : Balanced S cw' := by
  refine ⟨?_, fun s hs => ?_⟩
  · have hadd : (S.map fun s => (cw' s.address).toInt +
        if s.address = b.address then total S else 0).sum = total S := by
      rw [map_congr_left fun s hs => by rw [hcw s hs, sub_add_cancel], h.sum_raised]
    rw [sum_map_add, sum_chosen hS hb] at hadd
    omega
  · have hlow := h.low s hs
    have hweight := hS.pos s hs
    rw [hcw s hs]
    split
    next heq =>
      cases inj_on_of_nodup_map hS.nodup hs hb heq
      omega
    · omega

theorem calls_spec (h : Balanced S cw) (n : Nat) :
    ∃ ps cw', calls ⟨S, cw⟩ n = some (ps, ⟨S, cw'⟩) ∧ Balanced S cw' ∧
      ∀ s ∈ S, (cw' s.address).toInt = (cw s.address).toInt + n * s.weight.toInt -
        total S * ps.countP (·.address = s.address) := by
  induction n with
  | zero => exact ⟨[], cw, rfl, h, fun s _ => by simp⟩
  | succ n ih =>
    obtain ⟨ps, cw1, hcalls, hbal, hcount⟩ := ih
    obtain ⟨b, hb, cw2, hnext, hpos, hcw⟩ := next_spec hS hbal
    refine ⟨ps ++ [b], cw2, ?_, hbal.next hS hb hpos hcw, fun s hs => ?_⟩
    · simp [calls, hcalls, hnext]
    · rw [hcw s hs, hcount s hs, countP_append, countP_singleton]
      by_cases heq : s.address = b.address
      · simp only [heq, decide_true, if_true]
        push_cast
        ring
      · have hne : ¬ b.address = s.address := fun h => heq h.symm
        simp only [heq, hne, decide_false, Bool.false_eq_true, if_false]
        push_cast
        ring

theorem Balanced.zero (h : AtRest S cw) : Balanced S cw := by
  refine ⟨?_, fun s hs => ?_⟩
  · rw [map_congr_left h]
    simp
  · have := total_pos hS
    rw [h s hs]
    omega

theorem round_spec (h : AtRest S cw) (m : Nat) :
    ∃ ps cw', calls ⟨S, cw⟩ (m * (total S).toNat) = some (ps, ⟨S, cw'⟩) ∧
      AtRest S cw' ∧ ∀ s ∈ S, ps.countP (·.address = s.address) = m * s.weight.toInt := by
  have htotal := total_pos hS
  obtain ⟨ps, cw', hcalls, hbal, hcount⟩ := calls_spec hS (.zero hS h) (m * (total S).toNat)
  have hmul : ∀ s ∈ S, (cw' s.address).toInt =
      total S * (m * s.weight.toInt - ps.countP (·.address = s.address)) := by
    intro s hs
    rw [hcount s hs, h s hs, Nat.cast_mul, Int.toNat_of_nonneg htotal.le]
    ring
  have hnonneg : ∀ x ∈ S.map fun s => (cw' s.address).toInt, 0 ≤ x := by
    intro x hx
    obtain ⟨s, hs, rfl⟩ := mem_map.mp hx
    have hlow := hbal.low s hs
    rw [hmul s hs] at hlow ⊢
    exact mul_nonneg htotal.le (by nlinarith)
  have hrest : AtRest S cw' := fun s hs => all_zero_of_le_zero_le_of_sum_eq_zero hnonneg
    hbal.sum (mem_map_of_mem hs)
  refine ⟨ps, cw', hcalls, hrest, fun s hs => ?_⟩
  have hdiff := (mul_eq_zero.mp ((hmul s hs).symm.trans (hrest s hs))).resolve_left htotal.ne'
  omega

end

/-- The current weights are balanced; in every round each server is chosen as often as its weight.
-/
def Fair (wrr : WeightedRoundRobin) : Prop :=
  (∀ n ps wrr', wrr.calls n = some (ps, wrr') → Balanced wrr.weighted wrr'.currentWeight) ∧
    ∀ m, ∃ ps wrr₁ qs wrr₂, wrr.calls (m * (total wrr.weighted).toNat) = some (ps, wrr₁) ∧
      wrr₁.calls (total wrr.weighted).toNat = some (qs, wrr₂) ∧
      AtRest wrr.weighted wrr₂.currentWeight ∧
      ∀ s ∈ wrr.weighted, qs.countP (·.address = s.address) = s.weight.toInt

/-- The bound keeps every sum in range. It is not exact: above it there are fair schedules too. -/
theorem calls_fair {servers : List String} {weights : List Int64} {wrr : WeightedRoundRobin}
    (hnew : newWeightedRoundRobin servers weights = some wrr)
    (hfits : wrr.weighted.length * total wrr.weighted < 2 ^ 63) : Fair wrr := by
  unfold newWeightedRoundRobin at hnew
  split at hnew
  case isFalse => cases hnew
  case isTrue hok =>
  obtain ⟨hlen, hnodup, hpos⟩ := hok
  cases hnew
  by_cases hne : servers.zip weights = []
  · rw [hne]
    exact ⟨fun _ _ _ _ => ⟨rfl, nofun⟩, fun m => ⟨[], _, [], _, rfl, rfl, nofun, nofun⟩⟩
  · have hS : Servers ((servers.zip weights).map fun p => ⟨p.1, p.2, true⟩) := by
      refine ⟨?_, fun s hs => ?_, fun s hs => ?_, by simpa using hne, hfits⟩
      · rw [map_map]
        exact (map_fst_zip hlen.le).symm ▸ hnodup
      · obtain ⟨p, hp, rfl⟩ := mem_map.mp hs
        exact Int64.lt_iff_toInt_lt.mp (of_decide_eq_true (all_eq_true.mp hpos _ (of_mem_zip hp).2))
      · obtain ⟨p, hp, rfl⟩ := mem_map.mp hs
        rfl
    have hstart : AtRest ((servers.zip weights).map fun p => ⟨p.1, p.2, true⟩) fun _ => 0 :=
      fun _ _ => rfl
    refine ⟨fun n ps wrr' hcalls => ?_, fun m => ?_⟩
    · obtain ⟨ps', cw', heq, hbal, -⟩ := calls_spec hS (.zero hS hstart) n
      cases hcalls.symm.trans heq
      exact hbal
    · obtain ⟨ps, cw1, hfirst, hrest, -⟩ := round_spec hS hstart m
      obtain ⟨qs, cw2, hsecond, hrest', hcount⟩ := round_spec hS hrest 1
      rw [one_mul] at hsecond
      exact ⟨ps, _, qs, _, hfirst, hsecond, hrest', by simpa using hcount⟩

theorem calls_fair_two : ∃ wrr, newWeightedRoundRobin ["a", "b"] [2, 1] = some wrr ∧ Fair wrr :=
  ⟨_, rfl, calls_fair (show newWeightedRoundRobin ["a", "b"] [2, 1] = some _ from rfl) (by decide)⟩

/-- Three servers of a weight of `2 ^ 62`: the current weights overflow in the second call. -/
theorem not_calls_fair :
    ∃ weights wrr, newWeightedRoundRobin ["a", "b", "c"] weights = some wrr ∧ ¬ Fair wrr :=
  ⟨replicate 3 4611686018427387904, _, rfl, fun h =>
    absurd (h.1 2 _ _ rfl).sum (by decide)⟩

end Solocoder.HttpLb
