import Solocoder.ChainHash.Proofs.OwnerProofs

/-!
# Ranges of hashes and how they are merged

The ranges that end at the points of a sorted ring tile the circle. `mergeRanges` joins ranges that
touch, but never across the end of the 64-bit numbers.
-/

namespace Solocoder.ChainHash

open Lib List Option HashRange UInt64

/-! ## Hashes as numbers -/

theorem toNat_maxHashValue : maxHashValue.toNat = 2 ^ 64 - 1 := rfl

variable {a b : UInt64}

theorem ne_maxHashValue_of_lt (h : a < b) : a ≠ maxHashValue := by
  rintro rfl
  rw [lt_iff_toNat_lt, toNat_maxHashValue] at h
  have := b.toNat_lt
  omega

theorem toNat_add_one (h : a ≠ maxHashValue) : (a + 1).toNat = a.toNat + 1 := by
  have hne : a.toNat ≠ 2 ^ 64 - 1 := fun heq => h (UInt64.toNat_inj.1 heq)
  have hlt := a.toNat_lt
  rw [UInt64.toNat_add, toNat_one]
  omega

theorem add_one_le_iff (h : a ≠ maxHashValue) : a + 1 ≤ b ↔ a < b := by
  rw [le_iff_toNat_le, lt_iff_toNat_lt, toNat_add_one h]
  omega

theorem le_add_one_iff (h : a ≠ maxHashValue) : b ≤ a + 1 ↔ b ≤ a ∨ b = a + 1 := by
  rw [le_iff_toNat_le, le_iff_toNat_le, ← UInt64.toNat_inj, toNat_add_one h]
  omega

/-! ## Ranges -/

namespace HashRange

/-- The points of a range, which may wrap around. -/
def contains (r : HashRange) (h : UInt64) : Prop :=
  if r.start ≤ r.stop then r.start ≤ h ∧ h ≤ r.stop else r.start ≤ h ∨ h ≤ r.stop

theorem contains_of_le {r : HashRange} (hr : r.start ≤ r.stop) {h : UInt64} :
    r.contains h ↔ r.start ≤ h ∧ h ≤ r.stop := by
  rw [contains, if_pos hr]

theorem contains_of_lt {r : HashRange} (hr : r.stop < r.start) {h : UInt64} :
    r.contains h ↔ r.start ≤ h ∨ h ≤ r.stop := by
  rw [contains, if_neg (not_le.2 hr)]

end HashRange

section Points

variable {ring before after : List UInt64} {p q h : UInt64}

theorem findIdx_split_eq (before after : List UInt64) (p : UInt64)
    (hs : (before ++ p :: after).Pairwise (· < ·)) :
    (before ++ p :: after).findIdx (p ≤ ·) = before.length := by
  rw [findIdx_append, if_neg]
  · rw [findIdx_cons]
    simp
  · intro hidx
    obtain ⟨q, hq, hle⟩ := findIdx_lt_length.1 hidx
    have hlt : q < p := (pairwise_append.1 hs).2.2 q hq p mem_cons_self
    exact absurd (of_decide_eq_true hle) (not_le.2 hlt)

theorem rangeOf_cons (hs : (p :: after).Pairwise (· < ·)) :
    rangeOf (p :: after) p = ⟨(p :: after).getLastD 0 + 1, p⟩ := by
  have hidx : (p :: after).findIdx (p ≤ ·) = 0 := findIdx_split_eq [] after p hs
  exact if_pos hidx

theorem rangeOf_append (hs : (before ++ q :: p :: after).Pairwise (· < ·)) :
    rangeOf (before ++ q :: p :: after) p = ⟨q + 1, p⟩ := by
  have hidx : (before ++ q :: p :: after).findIdx (p ≤ ·) = before.length + 1 := by
    have hsplit := findIdx_split_eq (before ++ [q]) after p (by simpa using hs)
    simpa using hsplit
  have hget : (before ++ q :: p :: after).getD (before.length + 1 - 1) 0 = q := by
    simp
  exact (if_neg (by omega)).trans (by rw [hidx, hget])

theorem le_getLastD (hs : (p :: after).Pairwise (· < ·)) (hq : q ∈ p :: after) :
    q ≤ (p :: after).getLastD 0 := by
  have hle : (p :: after).Pairwise (· ≤ ·) := hs.imp le_of_lt
  exact hle.rel_getLast hq

theorem contains_rangeOf (hs : ring.Pairwise (· < ·)) (hp : p ∈ ring) :
    (rangeOf ring p).contains h ↔ (walk ring h).head? = some p := by
  obtain ⟨before, after, rfl⟩ := append_of_mem hp
  rcases eq_nil_or_concat before with rfl | ⟨before, q, rfl⟩
  · rw [nil_append] at hs ⊢
    rw [rangeOf_cons hs]
    set last := (p :: after).getLastD 0 with hlast
    have hle : p ≤ last := le_getLastD hs mem_cons_self
    -- the walk begins at the smallest point from outside the ring
    have hmin : ∀ q ∈ p :: after, p ≤ q := ((head?_of_sorted hs).1 rfl).2
    have hwalk : (walk (p :: after) h).head? = some p ↔ h ≤ p ∨ last < h := by
      rw [head?_walk hs, and_iff_right mem_cons_self]
      refine or_congr ⟨And.left, fun hle => ⟨hle, fun q hq _ => hmin q hq⟩⟩ ?_
      refine ⟨fun hlow => hlow.1 last (getLast_mem _), fun hlt => ⟨fun q hq => ?_, hmin⟩⟩
      exact lt_of_le_of_lt (le_getLastD hs hq) hlt
    rw [hwalk]
    by_cases hmax : last = maxHashValue
    · have hnot : ¬ last < h := fun hlt => ne_maxHashValue_of_lt hlt hmax
      rw [or_iff_left hnot, hmax]
      exact and_iff_right UInt64.zero_le
    · have hlt : p < last + 1 := by
        rw [lt_iff_toNat_lt, toNat_add_one hmax]
        rw [le_iff_toNat_le] at hle
        omega
      rw [contains_of_lt hlt, add_one_le_iff hmax, or_comm]
  · rw [concat_eq_append, append_assoc, singleton_append] at hs hp ⊢
    have hqp : q < p := by
      have := (pairwise_append.1 hs).2.1
      exact (pairwise_cons.1 this).1 p mem_cons_self
    have hmax := ne_maxHashValue_of_lt hqp
    rw [rangeOf_append hs, contains_of_le ((add_one_le_iff hmax).2 hqp), add_one_le_iff hmax,
      head?_walk hs, and_iff_right hp]
    have hq : q ∈ before ++ q :: p :: after := by simp
    have hcut : ∀ x ∈ before ++ q :: p :: after, x ≤ q ∨ p ≤ x := by
      obtain ⟨-, htail, hcross⟩ := pairwise_append.1 hs
      refine forall_mem_append.2 ⟨fun x hx => .inl (hcross x hx q mem_cons_self).le, ?_⟩
      refine forall_mem_cons.2 ⟨.inl le_rfl, fun x hx => .inr ?_⟩
      exact ((head?_of_sorted (pairwise_cons.1 htail).2).1 rfl).2 x hx
    constructor
    · rintro ⟨hqh, hhp⟩
      refine Or.inl ⟨hhp, fun x hx hle => (hcut x hx).resolve_left fun hxq => ?_⟩
      exact absurd hqh (not_lt.2 (hle.trans hxq))
    · rintro (⟨hhp, hmin⟩ | ⟨-, hmin⟩)
      · refine ⟨not_le.1 fun hle => ?_, hhp⟩
        exact absurd (hmin q hq hle) (not_le.2 hqp)
      · exact absurd (hmin q hq) (not_le.2 hqp)

def gaps (q : UInt64) : List UInt64 → List HashRange
  | [] => []
  | p :: after => ⟨q + 1, p⟩ :: gaps p after

theorem map_rangeOf_after (before : List UInt64) (hs : (before ++ q :: after).Pairwise (· < ·)) :
    after.map (rangeOf (before ++ q :: after)) = gaps q after := by
  induction after generalizing before q with
  | nil => rfl
  | cons p after ih =>
    have hs' : ((before ++ [q]) ++ p :: after).Pairwise (· < ·) := by simpa using hs
    have hrest := ih (before ++ [q]) hs'
    rw [append_assoc, singleton_append] at hrest
    rw [map_cons, rangeOf_append hs, hrest, gaps]

theorem map_rangeOf (hs : (p :: after).Pairwise (· < ·)) :
    (p :: after).map (rangeOf (p :: after)) = ⟨(p :: after).getLastD 0 + 1, p⟩ :: gaps p after := by
  rw [map_cons, rangeOf_cons hs]
  exact congrArg (_ :: ·) (map_rangeOf_after [] hs)

theorem map_stop_gaps (q : UInt64) (after : List UInt64) : (gaps q after).map stop = after := by
  induction after generalizing q with
  | nil => rfl
  | cons p after ih => rw [gaps, map_cons, ih]

theorem stop_rangeOf (ring : List UInt64) (p : UInt64) : (rangeOf ring p).stop = p := by
  simp only [rangeOf]
  split <;> rfl

end Points

/-! ## Lists of ranges -/

section Merge

variable {c r : HashRange} {rs : List HashRange} {h : UInt64}

/-- The first range ends before the second one begins, and both are proper. -/
structure Before (r r' : HashRange) : Prop where
  left : r.start ≤ r.stop
  lt : r.stop < r'.start
  right : r'.start ≤ r'.stop

/-- `mergeRanges` keeps the two ranges as they are. -/
structure Apart (r r' : HashRange) : Prop where
  lt : r.start < r'.start
  apart : ¬ r'.start ≤ r.stop + 1

theorem Before.start_lt {r r' : HashRange} (h : Before r r') : r.start < r'.start :=
  lt_of_le_of_lt h.left h.lt

theorem gaps_before {q : UInt64} {after : List UInt64} (hs : (q :: after).Pairwise (· < ·)) :
    (gaps q after).Pairwise Before ∧
      ∀ r ∈ gaps q after, q < r.start ∧ r.start ≤ r.stop ∧ r.stop ∈ after := by
  induction after generalizing q with
  | nil => exact ⟨Pairwise.nil, fun r hr => by cases hr⟩
  | cons p after ih =>
    obtain ⟨hq, hs'⟩ := pairwise_cons.1 hs
    obtain ⟨hpair, hmem⟩ := ih hs'
    have hqp : q < p := hq p mem_cons_self
    have hle : q + 1 ≤ p := (add_one_le_iff (ne_maxHashValue_of_lt hqp)).2 hqp
    have hlt : q < q + 1 := by
      rw [lt_iff_toNat_lt, toNat_add_one (ne_maxHashValue_of_lt hqp)]
      omega
    refine ⟨pairwise_cons.2 ⟨fun r hr => ?_, hpair⟩, fun r hr => ?_⟩
    · obtain ⟨hstart, hle', -⟩ := hmem r hr
      exact ⟨hle, hstart, hle'⟩
    · rcases mem_cons.1 hr with rfl | hr
      · exact ⟨hlt, hle, mem_cons_self⟩
      · obtain ⟨hstart, hle', hstop⟩ := hmem r hr
        exact ⟨hqp.trans hstart, hle', mem_cons_of_mem _ hstop⟩

theorem mergeLoop_ends (c : HashRange) (rs : List HashRange) :
    (mergeLoop c rs).map start <+ (c :: rs).map start ∧
      (mergeLoop c rs).map stop <+ (c :: rs).map stop := by
  induction rs generalizing c with
  | nil => exact ⟨.refl _, .refl _⟩
  | cons r rs ih =>
    rw [mergeLoop]
    split
    · obtain ⟨hstart, hstop⟩ := ih (if r.stop > c.stop then ⟨c.start, r.stop⟩ else c)
      refine ⟨hstart.trans ?_, hstop.trans ?_⟩ <;> split
      · exact (sublist_cons_self _ _).cons_cons _
      · exact (sublist_cons_self _ _).cons_cons _
      · exact sublist_cons_self _ _
      · exact (sublist_cons_self _ _).cons_cons _
    · exact ⟨(ih r).1.cons_cons _, (ih r).2.cons_cons _⟩

/-- Only the last merged range matters for a further one; it ends where the last of ascending ranges
ends. -/
theorem mergeLoop_concat (w c : HashRange) (rs : List HashRange) : ∃ init last,
    mergeLoop c rs = init ++ [last] ∧ mergeLoop c (rs ++ [w]) = init ++ mergeLoop last [w] ∧
      (((c :: rs).map stop).Pairwise (· < ·) →
        ((c :: rs).map stop).getLast? = some last.stop) := by
  induction rs generalizing c with
  | nil => exact ⟨[], c, rfl, rfl, fun _ => rfl⟩
  | cons r rs ih =>
    rw [cons_append, mergeLoop, mergeLoop, map_cons, map_cons, getLast?_cons_cons]
    split
    · obtain ⟨init, last, h, h', hlast⟩ := ih (if r.stop > c.stop then ⟨c.start, r.stop⟩ else c)
      refine ⟨init, last, h, h', fun hp => ?_⟩
      obtain ⟨hlt, hp⟩ := pairwise_cons.1 hp
      rw [if_pos (hlt r.stop mem_cons_self)] at hlast
      exact hlast hp
    · obtain ⟨init, last, h, h', hlast⟩ := ih r
      refine ⟨c :: init, last, by rw [h, cons_append], by rw [h', cons_append], fun hp => ?_⟩
      exact hlast (pairwise_cons.1 hp).2

theorem mergeLoop_cons (hb : Before c r) : mergeLoop c (r :: rs) =
      if r.start = c.stop + 1 then mergeLoop ⟨c.start, r.stop⟩ rs else c :: mergeLoop r rs := by
  have hmax := ne_maxHashValue_of_lt hb.lt
  have hiff : r.start ≤ c.stop + 1 ↔ r.start = c.stop + 1 := by
    rw [le_add_one_iff hmax, or_iff_right (not_le.2 hb.lt)]
  have hstop : r.stop > c.stop := lt_of_lt_of_le hb.lt hb.right
  rw [mergeLoop, if_pos hstop]
  exact if_congr hiff rfl rfl

theorem contains_joined (hb : Before c r) (htouch : r.start = c.stop + 1) :
    contains ⟨c.start, r.stop⟩ h ↔ c.contains h ∨ r.contains h := by
  have hmax := ne_maxHashValue_of_lt hb.lt
  have hlt : c.stop < r.stop := lt_of_lt_of_le hb.lt hb.right
  have hle : c.start ≤ r.stop := hb.left.trans hlt.le
  rw [contains_of_le (r := ⟨c.start, r.stop⟩) hle, contains_of_le hb.left,
    contains_of_le hb.right, htouch, add_one_le_iff hmax]
  constructor
  · rintro ⟨hstart, hstop⟩
    rcases le_or_gt h c.stop with hle | hgt
    · exact Or.inl ⟨hstart, hle⟩
    · exact Or.inr ⟨hgt, hstop⟩
  · rintro (⟨hstart, hle⟩ | ⟨hgt, hstop⟩)
    · exact ⟨hstart, hle.trans hlt.le⟩
    · exact ⟨hb.left.trans hgt.le, hstop⟩

/-- Merging covers the same hashes and keeps labels that touching ranges have in common. -/
structure MergeSpec {β : Type} (label : UInt64 → β) (ranges merged : List HashRange) : Prop where
  start : merged.map start ⊆ ranges.map start
  stop : merged.map stop ⊆ ranges.map stop
  apart : merged.Pairwise Apart
  covers : ∀ h b, (∃ r ∈ merged, r.contains h ∧ label r.stop = b) ↔
    ∃ r ∈ ranges, r.contains h ∧ label r.stop = b

variable {β : Type} {label : UInt64 → β}

theorem MergeSpec.perm {ranges ranges' merged : List HashRange} (h : MergeSpec label ranges merged)
    (hperm : ranges.Perm ranges') : MergeSpec label ranges' merged := by
  refine ⟨Subset.trans h.start (hperm.map _).subset, Subset.trans h.stop (hperm.map _).subset,
    h.apart, fun x b => ?_⟩
  rw [h.covers]
  exact exists_congr fun r => and_congr_left' hperm.mem_iff

structure Line (label : UInt64 → β) (l : List HashRange) : Prop where
  proper : ∀ r ∈ l, r.start ≤ r.stop
  before : l.Pairwise Before
  touch : ∀ a ∈ l, ∀ b ∈ l, b.start = a.stop + 1 → label b.stop = label a.stop

theorem Line.tail (h : Line label (c :: rs)) : Line label rs :=
  ⟨fun r hr => h.proper r (mem_cons_of_mem _ hr), (pairwise_cons.1 h.before).2,
    fun a ha b hb => h.touch a (mem_cons_of_mem _ ha) b (mem_cons_of_mem _ hb)⟩

theorem Line.join (h : Line label (c :: r :: rs)) (htouch : r.start = c.stop + 1) :
    Line label (⟨c.start, r.stop⟩ :: rs) := by
  obtain ⟨hbefore, htail⟩ := pairwise_cons.1 h.before
  have hb := hbefore r mem_cons_self
  have hle : c.start ≤ r.stop := hb.left.trans (hb.lt.le.trans hb.right)
  have hlabel := h.touch c mem_cons_self r (mem_cons_of_mem _ mem_cons_self) htouch
  refine ⟨forall_mem_cons.2 ⟨hle, h.tail.tail.proper⟩, pairwise_cons.2 ⟨fun r' hr => ?_,
    h.tail.tail.before⟩, forall_mem_cons.2 ⟨forall_mem_cons.2 ⟨fun _ => rfl, ?_⟩, fun a ha =>
      forall_mem_cons.2 ⟨fun heq => ?_, h.tail.tail.touch a ha⟩⟩⟩
  · have hr' := (pairwise_cons.1 htail).1 r' hr
    exact ⟨hle, hr'.lt, hr'.right⟩
  · exact fun b hb => h.tail.touch r mem_cons_self b (mem_cons_of_mem _ hb)
  · exact hlabel.trans (h.touch a (mem_cons_of_mem _ (mem_cons_of_mem _ ha)) c mem_cons_self heq)

theorem mergeLoop_spec (hl : Line label (c :: rs)) :
    (∀ r ∈ mergeLoop c rs, c.start ≤ r.start ∧ r.start ≤ r.stop) ∧
      MergeSpec label (c :: rs) (mergeLoop c rs) := by
  suffices h : (∀ r ∈ mergeLoop c rs, c.start ≤ r.start ∧ r.start ≤ r.stop) ∧
      (mergeLoop c rs).Pairwise Apart ∧ ∀ h b, (∃ r ∈ mergeLoop c rs, r.contains h ∧ label r.stop = b) ↔
        ∃ r ∈ c :: rs, r.contains h ∧ label r.stop = b from
    ⟨h.1, (mergeLoop_ends c rs).1.subset, (mergeLoop_ends c rs).2.subset, h.2.1, h.2.2⟩
  induction rs generalizing c with
  | nil =>
    refine ⟨fun r hr => ?_, pairwise_singleton _ _, fun h b => Iff.rfl⟩
    rw [mergeLoop, mem_singleton] at hr
    rw [hr]
    exact ⟨le_rfl, hl.proper c mem_cons_self⟩
  | cons r1 rs ih =>
    have hb := (pairwise_cons.1 hl.before).1 r1 mem_cons_self
    rw [mergeLoop_cons hb]
    split
    next htouch =>
      have hlabel := hl.touch c mem_cons_self r1 (mem_cons_of_mem _ mem_cons_self) htouch
      obtain ⟨hstart, hapart, hcovers⟩ := ih (hl.join htouch)
      refine ⟨hstart, hapart, fun h b => ?_⟩
      rw [hcovers]
      simp only [mem_cons, exists_eq_or_imp, contains_joined hb htouch, hlabel]
      tauto
    next htouch =>
      obtain ⟨hstart, hapart, hcovers⟩ := ih hl.tail
      refine ⟨fun r hr => ?_, pairwise_cons.2 ⟨fun r hr => ?_, hapart⟩, fun h b => ?_⟩
      · rcases mem_cons.1 hr with rfl | hr
        · exact ⟨le_rfl, hb.left⟩
        · exact ⟨hb.start_lt.le.trans (hstart r hr).1, (hstart r hr).2⟩
      · refine ⟨lt_of_lt_of_le hb.start_lt (hstart r hr).1, fun hle => htouch ?_⟩
        have hmax := ne_maxHashValue_of_lt hb.lt
        have hle1 := (hstart r hr).1.trans hle
        rw [le_add_one_iff hmax] at hle1
        exact hle1.resolve_left (not_le.2 hb.lt)
      · simp only [mem_cons (a := _) (b := c), exists_eq_or_imp, hcovers h b]

variable {w : HashRange} {l : List HashRange}

theorem mergeLoop_append_apart (hapart : ∀ r ∈ c :: rs, ¬ w.start ≤ r.stop + 1) :
    mergeLoop c (rs ++ [w]) = mergeLoop c rs ++ [w] := by
  obtain ⟨init, last, h, h', -⟩ := mergeLoop_concat w c rs
  obtain ⟨a, ha, hstop⟩ := mem_map.1 ((mergeLoop_ends c rs).2.subset (by simp [h] : last.stop ∈ _))
  rw [h', h, mergeLoop, if_neg (hstop ▸ hapart a ha), append_assoc]
  rfl

/-! ## `mergeRanges` -/

def mergeSorted : List HashRange → List HashRange
  | [] => []
  | r :: rs => mergeLoop r rs

variable {sorted : List HashRange}

theorem insertionSort_eq (hperm : l.Perm sorted)
    (hsorted : sorted.Pairwise fun a b => a.start < b.start) :
    l.insertionSort (fun a b => a.start ≤ b.start) = sorted := by
  have hperm' := (perm_insertionSort (fun a b : HashRange => a.start ≤ b.start) l).trans hperm
  have hnodup : (sorted.map start).Nodup :=
    pairwise_map.2 (hsorted.imp fun h => h.ne)
  refine hperm'.eq_of_pairwise (fun a b ha hb hab hba => ?_)
    (pairwise_insertionSort (fun a b : HashRange => a.start ≤ b.start) l)
    (hsorted.imp fun h => h.le)
  exact inj_on_of_nodup_map hnodup (hperm'.mem_iff.1 ha) hb (le_antisymm hab hba)

theorem mergeRanges_eq (hperm : l.Perm sorted)
    (hsorted : sorted.Pairwise fun a b => a.start < b.start) :
    mergeRanges l = mergeSorted sorted := by
  rw [mergeRanges, insertionSort_eq hperm hsorted]
  split
  · rename_i hlen
    rw [hperm.length_eq] at hlen
    match sorted, hlen with
    | [], _ => exact hperm.eq_nil
    | [r], _ => exact hperm.eq_singleton
  · cases sorted <;> rfl

theorem stop_mergeRanges (l : List HashRange) :
    (mergeRanges l).map stop ⊆ l.map stop ∧ (mergeRanges l = [] → l = []) := by
  have hperm := perm_insertionSort (fun a b : HashRange => a.start ≤ b.start) l
  rw [mergeRanges]
  split
  · exact ⟨Subset.refl _, id⟩
  · cases hsort : l.insertionSort (fun a b => a.start ≤ b.start) with
    | nil => exact ⟨nil_subset _, fun _ => (hsort ▸ hperm).symm.eq_nil⟩
    | cons c rs =>
      rw [hsort] at hperm
      refine ⟨Subset.trans (mergeLoop_ends c rs).2.subset (hperm.map _).subset, fun hnil => ?_⟩
      obtain ⟨init, last, h, -⟩ := mergeLoop_concat c c rs
      simp [h] at hnil

theorem mergeSorted_apart (h : l.Pairwise Apart) : mergeSorted l = l := by
  cases l with
  | nil => rfl
  | cons r rs =>
    rw [mergeSorted]
    induction rs generalizing r with
    | nil => rfl
    | cons r1 rs ih =>
      obtain ⟨hr, hrs⟩ := pairwise_cons.1 h
      rw [mergeLoop, if_neg (hr r1 mem_cons_self).apart, ih r1 hrs]

theorem mergeRanges_apart (h : l.Pairwise Apart) : mergeRanges l = l := by
  rw [mergeRanges_eq (List.Perm.refl l) (h.imp fun h => h.lt), mergeSorted_apart h]

theorem mergeSorted_spec (hl : Line label l) : MergeSpec label l (mergeSorted l) := by
  cases l with
  | nil =>
    exact ⟨Subset.refl _, Subset.refl _, Pairwise.nil, fun h b => Iff.rfl⟩
  | cons r rs => exact (mergeLoop_spec hl).2

theorem mergeSorted_append_spec (hl : Line label l) (hw : ∀ r ∈ l, r.start < w.start)
    (hapart : ∀ r ∈ l, ¬ w.start ≤ r.stop + 1) :
    MergeSpec label (l ++ [w]) (mergeSorted (l ++ [w])) := by
  cases l with
  | nil =>
    exact ⟨Subset.refl _, Subset.refl _, pairwise_singleton _ _, fun h b => Iff.rfl⟩
  | cons r rs =>
    obtain ⟨-, hspec⟩ := mergeLoop_spec hl
    have hmerged : mergeSorted (r :: rs ++ [w]) = mergeLoop r rs ++ [w] :=
      mergeLoop_append_apart hapart
    obtain ⟨hstart, hstop⟩ := mergeLoop_ends r (rs ++ [w])
    refine ⟨hstart.subset, hstop.subset, ?_, fun h b => ?_⟩ <;> rw [hmerged]
    · refine pairwise_append.2 ⟨hspec.apart, pairwise_singleton _ _, fun a ha b hb => ?_⟩
      rw [mem_singleton.1 hb]
      obtain ⟨x, hx, hstop⟩ := mem_map.1 (hspec.stop (mem_map_of_mem ha))
      obtain ⟨y, hy, hstart⟩ := mem_map.1 (hspec.start (mem_map_of_mem ha))
      exact ⟨hstart ▸ hw y hy, hstop ▸ hapart x hx⟩
    · have hcovers := hspec.covers h b
      simp only [mem_append, or_and_right, exists_or, hcovers]

end Merge

/-! ## The ranges of the points of one node -/

variable {ring points : List UInt64} {f : UInt64 → Bool} {β : Type} {label : UInt64 → β}

/-- Both ends of the ring are marked, so that a wrapping range follows right after another one. -/
def TouchesAround (ring : List UInt64) (f : UInt64 → Bool) : Prop :=
  ∃ first last, ring.head? = some first ∧ ring.getLast? = some last ∧ f first = true ∧
    f last = true ∧ last ≠ maxHashValue

theorem perm_filter_gaps {p : UInt64} {after : List UInt64} (hs : (p :: after).Pairwise (· < ·))
    (hpoints : points.Perm ((p :: after).filter f)) :
    (points.map (rangeOf (p :: after))).Perm
      (((⟨(p :: after).getLastD 0 + 1, p⟩ : HashRange) :: gaps p after).filter fun r => f r.stop) := by
  rw [← map_rangeOf hs, List.filter_map]
  have hstop : ((fun r : HashRange => f r.stop) ∘ rangeOf (p :: after)) = f :=
    funext fun q => congrArg f (stop_rangeOf _ q)
  rw [hstop]
  exact hpoints.map _

section Sorted

variable {p : UInt64} {after : List UInt64} (hs : (p :: after).Pairwise (· < ·))

include hs

theorem filter_gaps_before (f : UInt64 → Bool) :
    ((gaps p after).filter fun r => f r.stop).Pairwise Before ∧
      ∀ r ∈ (gaps p after).filter fun r => f r.stop,
        p < r.start ∧ r.start ≤ r.stop ∧ r.stop ∈ after ∧ f r.stop = true := by
  obtain ⟨hpair, hmem⟩ := gaps_before hs
  refine ⟨hpair.filter _, fun r hr => ?_⟩
  obtain ⟨hr, hf⟩ := mem_filter.1 hr
  obtain ⟨hstart, hle, hstop⟩ := hmem r hr
  exact ⟨hstart, hle, hstop, hf⟩

theorem start_lt_wrapping (hmax : (p :: after).getLastD 0 ≠ maxHashValue) {r : HashRange}
    (hr : r ∈ (gaps p after).filter fun r => f r.stop) :
    r.start < (p :: after).getLastD 0 + 1 := by
  obtain ⟨-, hle, hstop, -⟩ := (filter_gaps_before hs f).2 r hr
  have hlast := hle.trans (le_getLastD hs (mem_cons_of_mem _ hstop))
  rw [le_iff_toNat_le] at hlast
  rw [lt_iff_toNat_lt, toNat_add_one hmax]
  omega

theorem mergeRanges_wrapping (hpoints : points.Perm ((p :: after).filter f)) (hp : f p = true)
    (hmax : (p :: after).getLastD 0 ≠ maxHashValue) :
    let sorted := ((gaps p after).filter fun r => f r.stop) ++ [⟨(p :: after).getLastD 0 + 1, p⟩]
    (points.map (rangeOf (p :: after))).Perm sorted ∧
      mergeRanges (points.map (rangeOf (p :: after))) = mergeSorted sorted := by
  have hperm := perm_filter_gaps hs hpoints
  rw [filter_cons_of_pos (p := fun r : HashRange => f r.stop) hp] at hperm
  replace hperm := hperm.trans (perm_append_singleton _ _).symm
  refine ⟨hperm, mergeRanges_eq hperm (pairwise_append.2
    ⟨(filter_gaps_before hs f).1.imp Before.start_lt, pairwise_singleton _ _, fun r hr w hw => ?_⟩)⟩
  rw [mem_singleton.1 hw]
  exact start_lt_wrapping hs hmax hr

end Sorted

/-- The merged ranges of the marked points cover what the points own, and keep their labels. -/
theorem affected_spec (hs : ring.Pairwise (· < ·)) (hpoints : points.Perm (ring.filter f))
    (haround : ¬ TouchesAround ring f)
    (hlabel : ∀ p ∈ ring, f p = true → ∀ q ∈ ring, f q = true → (rangeOf ring q).start = p + 1 →
      label q = label p) :
    MergeSpec label (points.map (rangeOf ring)) (mergeRanges (points.map (rangeOf ring))) := by
  have hmem : ∀ r ∈ points.map (rangeOf ring), ∃ p ∈ ring, f p = true ∧ rangeOf ring p = r := by
    intro r hr
    obtain ⟨p, hp, rfl⟩ := mem_map.1 hr
    have := mem_filter.1 (hpoints.mem_iff.1 hp)
    exact ⟨p, this.1, this.2, rfl⟩
  have hlabel' : ∀ a ∈ points.map (rangeOf ring), ∀ b ∈ points.map (rangeOf ring),
      b.start = a.stop + 1 → label b.stop = label a.stop := by
    intro a ha b hb htouch
    obtain ⟨p, hp, hfp, rfl⟩ := hmem a ha
    obtain ⟨q, hq, hfq, rfl⟩ := hmem b hb
    rw [stop_rangeOf] at htouch ⊢
    rw [stop_rangeOf]
    exact hlabel p hp hfp q hq hfq htouch
  cases ring with
  | nil =>
    rw [hpoints.eq_nil]
    exact mergeSorted_spec ⟨nofun, Pairwise.nil, nofun⟩
  | cons p after =>
    obtain ⟨hpair, hgaps⟩ := filter_gaps_before hs f
    have hperm := perm_filter_gaps hs hpoints
    have hle : ∀ r ∈ (gaps p after).filter fun r => f r.stop, r.start ≤ r.stop :=
      fun r hr => (hgaps r hr).2.1
    have hline : ∀ {l}, (∀ r ∈ l, r.start ≤ r.stop) → l.Pairwise Before →
        l ⊆ points.map (rangeOf (p :: after)) → Line label l := fun hle hpair hin =>
      ⟨hle, hpair, fun a ha b hb => hlabel' a (hin ha) b (hin hb)⟩
    by_cases hp : f p = true
    · by_cases hmax : (p :: after).getLastD 0 = maxHashValue
      · -- the range of the smallest point begins at zero and comes first
        rw [filter_cons_of_pos (p := fun r : HashRange => f r.stop) hp, hmax] at hperm
        have hpair' : ((⟨0, p⟩ : HashRange) :: (gaps p after).filter fun r => f r.stop).Pairwise
            Before :=
          pairwise_cons.2 ⟨fun r hr => ⟨UInt64.zero_le, (hgaps r hr).1, hle r hr⟩, hpair⟩
        rw [mergeRanges_eq hperm (hpair'.imp Before.start_lt)]
        exact (mergeSorted_spec (hline (forall_mem_cons.2 ⟨UInt64.zero_le, hle⟩) hpair'
          hperm.symm.subset)).perm hperm.symm
      · have hlast : f ((p :: after).getLastD 0) ≠ true := fun hf =>
          haround ⟨p, (p :: after).getLastD 0, rfl, rfl, hp, hf, hmax⟩
        obtain ⟨hperm, heq⟩ := mergeRanges_wrapping hs hpoints hp hmax
        rw [heq]
        refine (mergeSorted_append_spec (hline hle hpair fun r hr =>
          hperm.mem_iff.2 (mem_append_left _ hr)) (fun r hr => start_lt_wrapping hs hmax hr)
          fun r hr htouch => ?_).perm hperm.symm
        obtain ⟨-, -, hstop, hf⟩ := hgaps r hr
        have hlt : r.stop < (p :: after).getLastD 0 :=
          lt_of_le_of_ne (le_getLastD hs (mem_cons_of_mem _ hstop)) fun heq => hlast (heq ▸ hf)
        rw [add_one_le_iff hmax, ← not_le] at htouch
        exact htouch ((add_one_le_iff (ne_maxHashValue_of_lt hlt)).2 hlt)
    · rw [filter_cons_of_neg (p := fun r : HashRange => f r.stop) hp] at hperm
      rw [mergeRanges_eq hperm (hpair.imp Before.start_lt)]
      exact (mergeSorted_spec (hline hle hpair hperm.symm.subset)).perm hperm.symm

/-- When the ranges touch around the end of the hashes, the range of the smallest point is lost. -/
theorem affected_loses (hs : ring.Pairwise (· < ·)) (hpoints : points.Perm (ring.filter f))
    (haround : TouchesAround ring f) {q : UInt64} (hq : q ∈ ring) (hfq : f q = false) :
    (mergeRanges (points.map (rangeOf ring))).Pairwise Apart ∧
      ∃ first, ring.head? = some first ∧ f first = true ∧
        ∀ r ∈ mergeRanges (points.map (rangeOf ring)), ¬ r.contains first := by
  obtain ⟨p, last, hhead, hgetLast, hfp, hflast, hmax⟩ := haround
  cases ring with
  | nil => cases hhead
  | cons p' after =>
    cases hhead
    suffices hsuff : (mergeRanges (points.map (rangeOf (p :: after)))).Pairwise Apart ∧
        ∀ r ∈ mergeRanges (points.map (rangeOf (p :: after))), ¬ r.contains p from
      ⟨hsuff.1, p, rfl, hfp, hsuff.2⟩
    have hlast : (p :: after).getLastD 0 = last := by
      rw [getLastD_eq_getLast?, hgetLast, getD_some]
    have hne : last ∈ after := by
      have hmem : last ∈ p :: after := mem_of_getLast? hgetLast
      refine (mem_cons.1 hmem).resolve_left fun heq => ?_
      -- a ring of one point has no point of another node
      have hle := le_getLastD hs hq
      rw [hlast, heq] at hle
      have hpq := ((head?_of_sorted hs).1 rfl).2 q hq
      rw [le_antisymm hle hpq, hfp] at hfq
      cases hfq
    obtain ⟨hpair, hgaps⟩ := filter_gaps_before hs f
    -- the ranges of the other points end with the largest point
    obtain ⟨mid, hmid⟩ : ∃ mid, after = mid ++ [last] := by
      obtain ⟨x, xs, rfl⟩ := exists_cons_of_ne_nil (ne_nil_of_mem hne)
      exact getLast?_eq_some_iff.1 hgetLast
    have hmap : ((gaps p after).filter fun r => f r.stop).map stop =
        mid.filter f ++ [last] := by
      have hfilter : ((gaps p after).map stop).filter f =
          ((gaps p after).filter (f ∘ stop)).map stop := List.filter_map
      rw [map_stop_gaps, hmid, filter_append, filter_singleton, hflast] at hfilter
      rw [hmid]
      exact hfilter.symm
    rw [(mergeRanges_wrapping hs hpoints hfp (hlast ▸ hmax)).2, hlast]
    cases hB : (gaps p after).filter fun r => f r.stop with
    | nil =>
      rw [hB] at hmap
      exact absurd hmap.symm (append_ne_nil_of_right_ne_nil _ (cons_ne_nil _ _))
    | cons c rs =>
      rw [hB] at hpair hgaps hmap
      have hdropped : mergeSorted (c :: rs ++ [(⟨last + 1, p⟩ : HashRange)]) = mergeLoop c rs := by
        obtain ⟨init, m, hm, hm', hlast'⟩ := mergeLoop_concat ⟨last + 1, p⟩ c rs
        have hstop := hlast' (pairwise_map.2 (hpair.imp fun h => h.lt.trans_le h.right))
        rw [hmap, getLast?_concat, some_inj] at hstop
        have hp := ((head?_of_sorted hs).1 rfl).2 last (mem_cons_of_mem _ hne)
        rw [cons_append, mergeSorted, hm', hm, mergeLoop, ← hstop, if_pos le_rfl, if_neg hp.not_gt]
        rfl
      rw [hdropped]
      have hline : Line (fun _ => ()) (c :: rs) :=
        ⟨fun r hr => (hgaps r hr).2.1, hpair, fun _ _ _ _ _ => rfl⟩
      obtain ⟨hstart, hspec⟩ := mergeLoop_spec hline
      refine ⟨hspec.apart, fun r hr hcontains => ?_⟩
      obtain ⟨a, ha, heq⟩ := mem_map.1 (hspec.start (mem_map_of_mem hr))
      rw [contains_of_le (hstart r hr).2, ← heq] at hcontains
      exact absurd (hgaps a ha).1 (not_lt.2 hcontains.1)

end Solocoder.ChainHash
