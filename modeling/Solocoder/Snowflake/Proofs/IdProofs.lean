import Solocoder.Snowflake.Generator
import Mathlib.Data.List.Induction
import Mathlib.Tactic.FinCases

/-!
# Proofs: the IDs of a generator

An ID is the number `timestamp * 2 ^ 22 + machineID * 2 ^ 12 + sequence`, so IDs of one machine are
ordered as their timestamps and sequence numbers are. Under the lock the pair of both only grows.
-/

namespace Solocoder.Flake

open List Generator Int64

abbrev Bits (k : Nat) (x : Int64) : Prop := 0 ≤ x.toInt ∧ x.toInt < 2 ^ k

/-- Fields that fit into their bits. -/
structure Fits (now machineID sequence : Int64) : Prop where
  now : Bits 41 now
  machineID : Bits 10 machineID
  sequence : Bits 12 sequence

theorem toInt_eq_toNat {x : Int64} (h : 0 ≤ x.toInt) : x.toInt = x.toBitVec.toNat := by
  have hx : x.toInt = x.toBitVec.toInt := rfl
  rw [hx, BitVec.toInt_eq_toNat_cond] at h ⊢
  split at h <;> split <;> omega

theorem toNat_shiftLeft_or {x y : BitVec 64} {i : Nat} (hx : x.toNat * 2 ^ i < 2 ^ 64)
    (hy : y.toNat < 2 ^ i) : (x <<< i ||| y).toNat = x.toNat * 2 ^ i + y.toNat := by
  rw [BitVec.toNat_or, BitVec.toNat_shiftLeft, Nat.shiftLeft_eq, Nat.mod_eq_of_lt hx,
    ← Nat.shiftLeft_eq, ← Nat.shiftLeft_add_eq_or_of_lt hy]

variable {now machineID sequence m : Int64} {s : Snowflake} {g : Generator}

section

variable (h : Fits now machineID sequence)
include h

theorem Fits.toNat : now.toInt = now.toBitVec.toNat ∧ machineID.toInt = machineID.toBitVec.toNat ∧
      sequence.toInt = sequence.toBitVec.toNat :=
  ⟨toInt_eq_toNat h.now.1, toInt_eq_toNat h.machineID.1, toInt_eq_toNat h.sequence.1⟩

theorem toInt_pack : (pack now machineID sequence).toInt =
      now.toInt * 2 ^ 22 + (machineID.toInt * 2 ^ 12 + sequence.toInt) := by
  obtain ⟨hnow, hmachine, hsequence⟩ := h.toNat
  obtain ⟨hnow', hmachine', hsequence'⟩ := h
  have hlow : (machineID.toBitVec <<< 12 ||| sequence.toBitVec).toNat =
      machineID.toBitVec.toNat * 2 ^ 12 + sequence.toBitVec.toNat :=
    toNat_shiftLeft_or (by omega) (by omega)
  have hbits : (pack now machineID sequence).toBitVec =
      now.toBitVec <<< 22 ||| (machineID.toBitVec <<< 12 ||| sequence.toBitVec) := by
    rw [← BitVec.or_assoc]
    rfl
  have hpack := toNat_shiftLeft_or (i := 22) (x := now.toBitVec)
    (y := machineID.toBitVec <<< 12 ||| sequence.toBitVec) (by omega) (by omega)
  show (pack now machineID sequence).toBitVec.toInt = _
  rw [hbits, BitVec.toInt_eq_toNat_of_lt (by omega)]
  omega

omit h in
theorem toInt_and_mask {id mask : Int64} (k : Nat) (hid : 0 ≤ id.toInt)
    (hmask : mask.toBitVec.toNat = 2 ^ k - 1) : (id &&& mask).toInt = id.toInt % 2 ^ k := by
  have hnat : (id &&& mask).toBitVec.toNat = id.toBitVec.toNat % 2 ^ k := by
    rw [Int64.toBitVec_and, BitVec.toNat_and, hmask, Nat.and_two_pow_sub_one_eq_mod]
  have hbits := toInt_eq_toNat hid
  have hle : id.toBitVec.toNat % 2 ^ k ≤ id.toBitVec.toNat := Nat.mod_le _ _
  have hval : (id &&& mask).toInt = (id &&& mask).toBitVec.toInt := rfl
  have hid' : id.toInt = id.toBitVec.toInt := rfl
  have hlt := BitVec.toInt_lt (x := id.toBitVec)
  rw [hval, BitVec.toInt_eq_toNat_of_lt (by omega), hbits]
  norm_cast

theorem parse_pack : parse (pack now machineID sequence) = ⟨now, machineID, sequence⟩ := by
  have hpack := toInt_pack h
  obtain ⟨hnow, hmachine, hsequence⟩ := h
  generalize pack now machineID sequence = id at hpack
  have hid : 0 ≤ id.toInt := by omega
  have hshift : ∀ k, (id.toBitVec.sshiftRight k).toInt = id.toInt / 2 ^ k := by
    intro k
    rw [BitVec.toInt_sshiftRight, Int.shiftRight_eq_div_pow]
    rfl
  have hhigh : (id >>> timestampShift).toInt = id.toInt / 2 ^ 22 := hshift 22
  have hmid : (id >>> machineIDShift).toInt = id.toInt / 2 ^ 12 := hshift 12
  have hmachineID : ((id >>> machineIDShift) &&& maxMachineID).toInt = machineID.toInt := by
    rw [toInt_and_mask 10 (by omega) (by decide)]
    omega
  have hsequenceID : (id &&& maxSequence).toInt = sequence.toInt := by
    rw [toInt_and_mask 12 hid (by decide)]
    omega
  have hnowID : (id >>> timestampShift).toInt = now.toInt := by omega
  unfold parse
  rw [toInt_inj.1 hnowID, toInt_inj.1 hmachineID, toInt_inj.1 hsequenceID]

theorem pack_lt {now' sequence' : Int64} (h' : Fits now' machineID sequence')
    (hlt : now.toInt < now'.toInt ∨ now.toInt = now'.toInt ∧ sequence.toInt < sequence'.toInt) :
    pack now machineID sequence < pack now' machineID sequence' := by
  have hsequence := h.sequence
  have hsequence' := h'.sequence
  rw [lt_iff_toInt_lt, toInt_pack h, toInt_pack h']
  omega

end

/-- A section returns an ID, with a later timestamp or the next sequence number, or it changes
nothing. -/
theorem locked_cases {s' : Snowflake} {ends : Section} (h : s.locked now = (s', ends)) :
    (s' = s ∧ ∀ id, ends ≠ .issued id) ∨
      (ends = .issued (pack now s.machineID s'.sequence) ∧ s'.machineID = s.machineID ∧
        s'.lastTS = now ∧
        (s.lastTS < now ∧ s'.sequence = 0 ∨
          now = s.lastTS ∧ s.sequence < maxSequence ∧ s'.sequence = s.sequence + 1)) := by
  simp only [Snowflake.locked] at h
  split_ifs at h with hback hsmall hfull hnow <;> cases h
  · exact .inl ⟨rfl, nofun⟩
  · exact .inl ⟨rfl, nofun⟩
  · exact .inl ⟨rfl, nofun⟩
  · have hseq : ¬ s.sequence ≥ maxSequence := fun hseq => hfull ⟨hnow, hseq⟩
    exact .inr ⟨rfl, rfl, rfl, .inr ⟨hnow, Int64.not_le.1 hseq, rfl⟩⟩
  · have hlt := Int64.lt_of_le_of_ne (Int64.not_lt.1 hback) (Ne.symm hnow)
    exact .inr ⟨rfl, rfl, rfl, .inl ⟨hlt, rfl⟩⟩

/-- The reading of an event is less than 2 ^ 41 milliseconds after the epoch. -/
def Event.ReadsWithin : Event → Prop
  | .call => True
  | .lock _ unixMilli => 0 ≤ (timestamp unixMilli).toInt ∧ (timestamp unixMilli).toInt < 2 ^ 41
  | .poll _ unixMilli _ => 0 ≤ (timestamp unixMilli).toInt ∧ (timestamp unixMilli).toInt < 2 ^ 41

/-- The state of a generator of the machine `m` is not behind any ID it has returned. -/
structure Ahead (m : Int64) (s : Snowflake) (issue : Issue) : Prop where
  fits : Fits issue.timestamp m issue.sequence
  id : issue.id = pack issue.timestamp m issue.sequence
  le : issue.timestamp.toInt < s.lastTS.toInt ∨
    issue.timestamp.toInt = s.lastTS.toInt ∧ issue.sequence.toInt ≤ s.sequence.toInt

/-- What every run of a generator of the machine `m` keeps. -/
structure Ordered (m : Int64) (g : Generator) : Prop where
  machineID : g.state.machineID = m
  machine : Bits 10 m
  sequence : Bits 12 g.state.sequence
  ahead : ∀ issue ∈ g.issues, Ahead m g.state issue
  sorted : (g.issues.map (·.id)).Pairwise (· < ·)
  returned : ∀ i id, g.calls[i]? = some (.returned (.ok id)) →
    ∃ issue ∈ g.issues, issue.call = i ∧ issue.id = id

theorem Ordered.init {cfg : Config} (h : new cfg = .ok s) : Ordered cfg.machineID (.init s) := by
  unfold new at h
  split_ifs at h with hrange
  cases h
  obtain ⟨hneg, hmax⟩ := not_or.1 hrange
  have hnonneg := le_iff_toInt_le.1 (Int64.not_lt.1 hneg)
  have hle := le_iff_toInt_le.1 (Int64.not_lt.1 hmax)
  have hmaxInt : maxMachineID.toInt = 2 ^ 10 - 1 := by decide
  have hzero : (0 : Int64).toInt = 0 := rfl
  exact ⟨rfl, by omega, by simp only [init]; omega, nofun, .nil, nofun⟩

theorem getElem?_set_returned {calls : List Call} {i j : Nat} {call : Call} {id : Int64}
    (hcall : call ≠ .returned (.ok id)) (h : (calls.set i call)[j]? = some (.returned (.ok id))) :
    calls[j]? = some (.returned (.ok id)) := by
  rw [getElem?_set] at h
  split_ifs at h
  · exact absurd (Option.some.inj h) hcall
  · exact h

theorem Ordered.setCall (h : Ordered m g) (i : Nat) {call : Call}
    (hcall : ∀ id, call ≠ .returned (.ok id)) : Ordered m { g with calls := g.calls.set i call } :=
  { h with returned := fun j id hj => h.returned j id (getElem?_set_returned (hcall id) hj) }

theorem toInt_succ {x : Int64} (hx : Bits 12 x) : (x + 1).toInt = x.toInt + 1 := by
  have hone : (1 : Int64).toInt = 1 := rfl
  rw [toInt_add, hone, Int.bmod_eq_of_le (by omega) (by omega)]

theorem Ordered.issue (h : Ordered m g) (i : Nat) {s' : Snowflake} (hm : s'.machineID = m)
    (hnow : Bits 41 s'.lastTS) (hseq : Bits 12 s'.sequence)
    (hlater : g.state.lastTS.toInt < s'.lastTS.toInt ∨ g.state.lastTS.toInt = s'.lastTS.toInt ∧
      g.state.sequence.toInt < s'.sequence.toInt) :
    Ordered m
      { state := s'
        calls := g.calls.set i (.returned (.ok (pack s'.lastTS m s'.sequence)))
        issues := g.issues ++ [⟨i, pack s'.lastTS m s'.sequence, s'.lastTS, s'.sequence⟩] } := by
  have hfits : Fits s'.lastTS m s'.sequence := ⟨hnow, h.machine, hseq⟩
  refine ⟨hm, h.machine, hseq, ?_, ?_, ?_⟩
  · intro issue hissue
    rcases mem_append.1 hissue with hissue | hissue
    · obtain ⟨hfits', hid, hle⟩ := h.ahead issue hissue
      exact ⟨hfits', hid, by simp only; omega⟩
    · obtain rfl := mem_singleton.1 hissue
      exact ⟨hfits, rfl, .inr ⟨rfl, le_rfl⟩⟩
  · rw [map_append]
    refine pairwise_append.2 ⟨h.sorted, pairwise_singleton _ _, ?_⟩
    intro id hid id' hid'
    obtain ⟨issue, hissue, rfl⟩ := List.mem_map.1 hid
    obtain rfl := mem_singleton.1 hid'
    obtain ⟨hfits', hid, hle⟩ := h.ahead issue hissue
    rw [hid]
    exact pack_lt hfits' hfits (by omega)
  · intro j id hj
    rw [getElem?_set] at hj
    split_ifs at hj with hij
    · cases hj
      exact ⟨_, mem_append_right _ mem_cons_self, hij, rfl⟩
    · obtain ⟨issue, hissue, hcall⟩ := h.returned j id hj
      exact ⟨issue, mem_append_left _ hissue, hcall⟩

theorem Ordered.lockStep (h : Ordered m g) (i : Nat) (hnow : Bits 41 now) :
    Ordered m (g.lockStep i now) := by
  unfold Generator.lockStep
  cases hlocked : g.state.locked now with
  | mk s' ends =>
    rcases locked_cases hlocked with ⟨rfl, hends⟩ | ⟨rfl, hm, rfl, hlater⟩
    · cases ends with
      | issued id => exact absurd rfl (hends id)
      | failed e => exact h.setCall i nofun
      | waits targetTS timeout => exact h.setCall i nofun
    · rw [h.machineID] at hm ⊢
      have hseq := h.sequence
      have hmax : maxSequence.toInt = 2 ^ 12 - 1 := by decide
      have hzero : (0 : Int64).toInt = 0 := rfl
      rcases hlater with ⟨hlt, hs⟩ | ⟨heq, hlt, hs⟩
      · have hlt' := lt_iff_toInt_lt.1 hlt
        exact h.issue i hm hnow (by rw [hs]; omega) (.inl hlt')
      · have hlt' := lt_iff_toInt_lt.1 hlt
        have hsucc := toInt_succ hseq
        exact h.issue i hm hnow (by rw [hs]; omega) (.inr ⟨by rw [heq], by rw [hs]; omega⟩)

theorem Ordered.step (h : Ordered m g) {e : Event} (he : e.ReadsWithin) : Ordered m (g.step e) := by
  cases e with
  | call =>
    refine { h with returned := fun i id hi => ?_ }
    have hi' : (g.calls ++ [.start])[i]? = some (.returned (.ok id)) := hi
    rw [getElem?_append] at hi'
    split at hi'
    · exact h.returned i id hi'
    · rw [getElem?_singleton] at hi'
      split at hi' <;> cases hi'
  | lock i unixMilli =>
    unfold Generator.step
    dsimp only
    split
    · exact h.lockStep i he
    · exact h
  | poll i unixMilli elapsed =>
    unfold Generator.step
    dsimp only
    split
    · refine h.setCall i fun id => ?_
      unfold pollCall
      split_ifs <;> exact nofun
    · exact h

theorem Ordered.run {cfg : Config} (h : new cfg = .ok s) {events : List Event}
    (hevents : ∀ e ∈ events, e.ReadsWithin) : Ordered cfg.machineID (.run s events) :=
  foldlRecOn events Generator.step (.init h) fun _ hg e he => Ordered.step hg (hevents e he)

/-- The IDs of a generator increase strictly, `Parse` recovers the numbers of each of them, and
generators of different machines have no ID in common. -/
theorem ids_increase_and_differ (cfg cfg' : Config) (s s' : Snowflake) (hnew : new cfg = .ok s)
    (hnew' : new cfg' = .ok s') (events events' : List Event) (hclock : ∀ e ∈ events, e.ReadsWithin)
    (hclock' : ∀ e ∈ events', e.ReadsWithin) :
    ((run s events).issues.map (·.id)).Pairwise (· < ·) ∧
      (∀ i id, (run s events).calls[i]? = some (.returned (.ok id)) →
        ∃ issue ∈ (run s events).issues, issue.call = i ∧ issue.id = id) ∧
      (∀ issue ∈ (run s events).issues,
        parse issue.id = ⟨issue.timestamp, cfg.machineID, issue.sequence⟩) ∧
      (cfg.machineID ≠ cfg'.machineID → ∀ issue ∈ (run s events).issues,
        ∀ issue' ∈ (run s' events').issues, issue.id ≠ issue'.id) := by
  have hrun := Ordered.run hnew hclock
  have hrun' := Ordered.run hnew' hclock'
  have hparse : ∀ issue ∈ (run s events).issues,
      parse issue.id = ⟨issue.timestamp, cfg.machineID, issue.sequence⟩ := by
    intro issue hissue
    obtain ⟨hfits, hid, -⟩ := hrun.ahead issue hissue
    rw [hid, parse_pack hfits]
  refine ⟨hrun.sorted, hrun.returned, hparse, ?_⟩
  intro hne issue hissue issue' hissue' heq
  obtain ⟨hfits', hid', -⟩ := hrun'.ahead issue' hissue'
  have hsame := hparse issue hissue
  rw [heq, hid', parse_pack hfits'] at hsame
  exact hne (ParsedID.mk.inj hsame).2.1.symm

/-- The clock of the first generator steps back by three milliseconds and its second call waits. -/
theorem ids_increase_and_differ_afterStepBack :
    let ids := (run ⟨1, -1, 0⟩ [.call, .lock 0 1704067200007, .call, .lock 1 1704067200004,
      .poll 1 1704067200008 false, .lock 1 1704067200009]).issues.map (·.id)
    ids = [7 * 2 ^ 22 + 2 ^ 12, 9 * 2 ^ 22 + 2 ^ 12] ∧ ids.Pairwise (· < ·) :=
  ⟨by decide, (ids_increase_and_differ ⟨1⟩ ⟨2⟩ ⟨1, -1, 0⟩ ⟨2, -1, 0⟩ rfl rfl _ [] (by
      intro e he
      fin_cases he <;> trivial)
    nofun).1⟩

end Solocoder.Flake
