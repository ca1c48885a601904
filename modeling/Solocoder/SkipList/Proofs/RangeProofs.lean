import Solocoder.SkipList.Proofs.RefineProofs

/-!
# `Range`, and whole runs

`Range` filters the entries by the interval, drops `Offset` of them and keeps at most `Limit`. The
answers of all calls after a run are those of the finite map.
-/

namespace Solocoder.Skip

open List Option RangeOptions Heap SkipList

variable {K V : Type} [LinearOrder K] (o : RangeOptions)

/-- The key is in the range. -/
def RangeOptions.inside (start «end» key : K) : Bool :=
  (decide (start < key) || (o.startInclusive && decide (key = start))) &&
    (decide (key < «end») || (o.endInclusive && decide (key = «end»)))

/-- What remains of a list when `skipped` and `taken` entries are already done. -/
def RangeOptions.window {α : Type} (skipped : Int) (taken : Nat) (l : List α) : List α :=
  let rest := l.drop (o.offset - skipped).toNat
  if 0 < o.limit then rest.take (o.limit - taken).toNat else rest

section Window

variable {α : Type} {o : RangeOptions} {skipped : Int} {taken : Nat} {a : α} {l : List α}

theorem window_nil : o.window skipped taken ([] : List α) = [] := by
  unfold window
  simp

theorem window_skip (h : skipped < o.offset) :
    o.window skipped taken (a :: l) = o.window (skipped + 1) taken l := by
  have hdrop : (o.offset - skipped).toNat = (o.offset - (skipped + 1)).toNat + 1 := by omega
  unfold window
  rw [hdrop]
  rfl

theorem window_last (h : ¬ skipped < o.offset) (hlimit : 0 < o.limit)
    (htaken : o.limit = taken + 1) : o.window skipped taken (a :: l) = [a] := by
  have hdrop : (o.offset - skipped).toNat = 0 := by omega
  have htake : (o.limit - taken).toNat = 1 := by omega
  unfold window
  rw [hdrop, htake, if_pos hlimit]
  rfl

theorem window_take (h : ¬ skipped < o.offset) (htaken : 0 < o.limit → (taken : Int) < o.limit) :
    o.window skipped taken (a :: l) = a :: o.window skipped (taken + 1) l := by
  have hdrop : (o.offset - skipped).toNat = 0 := by omega
  unfold window
  rw [hdrop]
  simp only [drop_zero]
  split
  next hlimit =>
    have htake : (o.limit - taken).toNat = (o.limit - (taken + 1 : Nat)).toNat + 1 := by omega
    rw [htake, take_succ_cons]
  · rfl

end Window

theorem RangeOptions.inside_eq {start «end» key : K} (hstart : start ≤ key) (hend : key ≤ «end») :
    o.inside start «end» key = (!(decide (key = start) && !o.startInclusive) &&
        !(decide (key = «end») && !o.endInclusive)) := by
  have hleft : (decide (start < key) || (o.startInclusive && decide (key = start))) =
      !(decide (key = start) && !o.startInclusive) := by
    rcases lt_or_eq_of_le hstart with hlt | rfl
    · simp [hlt, ne_of_gt hlt]
    · simp
  have hright : (decide (key < «end») || (o.endInclusive && decide (key = «end»))) =
      !(decide (key = «end») && !o.endInclusive) := by
    rcases lt_or_eq_of_le hend with hlt | rfl
    · simp [hlt, ne_of_lt hlt]
    · simp
  unfold inside
  rw [hleft, hright]

theorem RangeOptions.bounds_of_inside {o : RangeOptions} {start «end» key : K}
    (h : o.inside start «end» key) : start ≤ key ∧ key ≤ «end» := by
  simp only [inside, Bool.and_eq_true, Bool.or_eq_true, decide_eq_true_eq] at h
  exact ⟨h.1.elim le_of_lt fun h => h.2.ge, h.2.elim le_of_lt fun h => h.2.le⟩

variable [Inhabited K] [Inhabited V]

theorem Heap.rangeLoop_eq {h : Heap K V} {start «end» : K} {o : RangeOptions} {x : Ptr}
    {l : List Ptr} {fuel : Nat} (skipped : Int) (result : List (K × V))
    (hchain : Lib.Chain (h.forward · 0) x l) (hvalid : ∀ p ∈ l, p < h.length)
    (hsorted : h.Sorted l) (hstart : ∀ p ∈ l, start ≤ (h.node p).key) (hfuel : l.length < fuel)
    (htaken : 0 < o.limit → (result.length : Int) < o.limit) :
    h.rangeLoop start «end» o fuel l.head? skipped result =
      some (result ++ o.window skipped result.length
        ((h.pairs l).filter fun kv => o.inside start «end» kv.1)) := by
  induction l generalizing x fuel skipped result with
  | nil =>
    obtain ⟨fuel, rfl⟩ := Nat.exists_eq_add_one.2 hfuel
    unfold pairs
    rw [map_nil, filter_nil, window_nil, append_nil]
    rfl
  | cons y l ih =>
    obtain ⟨fuel, rfl⟩ := Nat.exists_eq_add_one.2 (Nat.zero_lt_of_lt hfuel)
    obtain ⟨hy, hsorted⟩ := pairwise_cons.mp hsorted
    rw [forall_mem_cons] at hvalid hstart
    have hfuel := Nat.lt_of_succ_lt_succ hfuel
    have hnext : h.forward y 0 = some l.head? := hchain.2.next_eq
    have hpairs : h.pairs (y :: l) = ((h.node y).key, (h.node y).value) :: h.pairs l := rfl
    rw [head?_cons]
    unfold rangeLoop
    simp only [bind_eq_bind, getElem?_eq_node hvalid.1, bind_some, hnext]
    by_cases hend : «end» < (h.node y).key
    · -- all later keys are behind the interval too
      have hnone : (h.pairs (y :: l)).filter (fun kv => o.inside start «end» kv.1) = [] := by
        refine filter_eq_nil_iff.mpr fun kv hkv hin => (bounds_of_inside hin).2.not_gt ?_
        obtain ⟨p, hp, rfl⟩ := List.mem_map.mp hkv
        rcases mem_cons.mp hp with rfl | hp
        · exact hend
        · exact lt_trans hend (hy p hp)
      rw [if_pos hend, hnone, window_nil, append_nil]
    · rw [if_neg hend, hpairs, filter_cons, o.inside_eq hstart.1 (not_lt.mp hend)]
      have hrest := fun skipped result =>
        ih skipped result hchain.2 hvalid.2 hsorted hstart.2 hfuel
      split
      · split
        next hskip => rw [hrest _ _ htaken, window_skip hskip]
        next hskip =>
          split
          next hlast =>
            rw [length_append, length_singleton] at hlast
            rw [window_last hskip hlast.1 (by omega)]
          next hmore =>
            rw [length_append, length_singleton] at hmore
            rw [hrest, window_take hskip htaken, length_append, append_assoc]
            · rfl
            · rw [length_append, length_singleton]
              omega
      · exact hrest _ _ htaken

/-- What `Range` returns for entries in increasing order. -/
def RangeOptions.select (start «end» : K) (pairs : List (K × V)) : List (K × V) :=
  let rest := (pairs.filter fun kv => o.inside start «end» kv.1).drop o.offset.toNat
  if 0 < o.limit then rest.take o.limit.toNat else rest

variable {sl : SkipList K V} {c : Nat → List Ptr} {m : Map K V}

theorem Refines.range_eq (h : Refines sl c m) (start «end» : K) (opts : Option RangeOptions) :
    sl.range start «end» opts =
      some ((opts.getD defaultRangeOptions).select start «end» (sl.heap.pairs (c 0))) := by
  set o := opts.getD defaultRangeOptions
  have hselect : ∀ l : List (K × V), o.window 0 0 l =
      if 0 < o.limit then (l.drop o.offset.toNat).take o.limit.toNat
      else l.drop o.offset.toNat := by
    unfold window
    simp
  unfold SkipList.range RangeOptions.select
  rw [← hselect]
  by_cases hempty : «end» < start
  · have hnone : (sl.heap.pairs (c 0)).filter (fun kv => o.inside start «end» kv.1) = [] := by
      refine filter_eq_nil_iff.mpr fun kv _ hin => ?_
      obtain ⟨hle, hge⟩ := bounds_of_inside hin
      exact (hle.trans hge).not_gt hempty
    rw [if_pos hempty, hnone, window_nil]
  · rw [if_neg hempty, h.shape.descend_eq start]
    simp only [bind_eq_bind, bind_some, h.shape.forward_pred start h.maxLevel_pos]
    have hnotBelow : ∀ p ∈ sl.heap.notBelow start (c 0), p ∈ c 0 :=
      fun p hp => mem_of_mem_filter hp
    rw [rangeLoop_eq 0 [] (h.shape.chain_pred start h.maxLevel_pos)
      (fun p hp => h.shape.valid p (hnotBelow p hp)) (h.shape.sorted.filter _)
      (fun p hp => le_of_mem_notBelow hp)
      (Nat.lt_succ_of_le (Nat.le_of_lt (Nat.lt_of_le_of_lt (length_filter_le _ _)
        (h.shape.length_lt 0)))) (fun hlimit => hlimit)]
    -- the entries in front of the interval are filtered out
    have hbelow : (sl.heap.pairs (sl.heap.below start (c 0))).filter
        (fun kv => o.inside start «end» kv.1) = [] := by
      refine filter_eq_nil_iff.mpr fun kv hkv hin => (bounds_of_inside hin).1.not_gt ?_
      obtain ⟨p, hp, rfl⟩ := List.mem_map.mp hkv
      exact lt_of_mem_below hp
    have hsplit : sl.heap.pairs (c 0) = sl.heap.pairs (sl.heap.below start (c 0)) ++
        sl.heap.pairs (sl.heap.notBelow start (c 0)) := by
      unfold pairs
      rw [← map_append, h.shape.sorted.below_append_notBelow start]
    rw [hsplit, filter_append, hbelow]
    rfl

/-- What a call does to the map. -/
def Map.step (m : Map K V) : Op K V → Map K V
  | .insert key value _ => m.insert key value
  | .delete key => m.erase key
  | .clear => ∅

theorem refines_headerNode {heap : Heap K V} {header maxLevel : Nat} (hmax : 1 ≤ maxLevel)
    (hheader : heap[header]? = some (headerNode maxLevel)) :
    Refines ⟨heap, header, none, 1, 0, maxLevel⟩ (fun _ => []) ∅ := by
  constructor
  · constructor
    · exact le_refl 1
    · exact hmax
    · intro i hi
      show forward heap header i = some none
      unfold forward
      rw [hheader]
      exact List.getElem?_eq_some_iff.mpr ⟨by simpa [headerNode] using hi, by simp [headerNode]⟩
    · exact fun _ => List.Sublist.refl _
    · exact fun _ _ => rfl
    · exact forall_mem_nil _
    · exact List.Pairwise.nil
    · exact not_mem_nil
    · rfl
    · rfl
  · simp [pairs]

theorem Refines.clear_spec (h : Refines sl c m) : Refines sl.clear (fun _ => []) ∅ :=
  refines_headerNode h.maxLevel_pos (getElem?_concat_length)

theorem Refines.step_spec (h : Refines sl c m) (op : Op K V) :
    ∃ sl' c', sl.step op = some sl' ∧ Refines sl' c' (m.step op) := by
  cases op with
  | insert key value coin => exact h.insert_spec key value coin
  | delete key =>
    obtain ⟨sl', c', heq, hrefines⟩ := h.delete_spec key
    refine ⟨sl', c', ?_, hrefines⟩
    unfold step
    simp only [bind_eq_bind, heq, bind_some]
  | clear => exact ⟨_, _, rfl, h.clear_spec⟩

theorem Refines.run_spec (h : Refines sl c m) (ops : List (Op K V)) :
    ∃ sl' c', sl.run ops = some sl' ∧ Refines sl' c' (ops.foldl Map.step m) := by
  induction ops generalizing sl c m with
  | nil => exact ⟨sl, c, rfl, h⟩
  | cons op ops ih =>
    obtain ⟨sl1, c1, heq1, h1⟩ := h.step_spec op
    obtain ⟨sl2, c2, heq2, h2⟩ := ih h1
    refine ⟨sl2, c2, ?_, h2⟩
    unfold run
    rw [foldlM_cons, heq1]
    exact heq2

/-- The skip list answers as the map: `pairs` are the entries of the map in increasing order, and
`levels i` are the nodes of level `i`. -/
structure Agrees (sl : SkipList K V) (m : Map K V) (pairs : List (K × V))
    (levels : Nat → List Ptr) : Prop where
  increasing : (pairs.map Prod.fst).Pairwise (· < ·)
  entries : ∀ k v, (k, v) ∈ pairs ↔ m.lookup k = some v
  search : ∀ key, sl.search key = some (m.lookup key)
  contains : ∀ key, sl.contains key = some (decide (key ∈ m))
  len : sl.len = m.keys.card
  all : sl.all = some pairs
  first : sl.first = some pairs.head?
  last : sl.last = some pairs.getLast?
  range : ∀ start «end» opts, sl.range start «end» opts =
    some ((opts.getD defaultRangeOptions).select start «end» pairs)
  level : ∀ i < sl.maxLevel, sl.levelChain i = some (levels i)
  level_increasing : ∀ i < sl.maxLevel, sl.heap.Sorted (levels i)
  level_sublist : ∀ i, (levels (i + 1)).Sublist (levels i)

/-- After any calls, and for any random levels, the skip list answers as the finite map that the
same calls make. -/
theorem skipList_refines_map (maxLevel : Int) (hmax : 1 ≤ maxLevel) (ops : List (Op K V)) :
    ∃ sl₀ sl : SkipList K V, new maxLevel = .ok sl₀ ∧ sl₀.run ops = some sl ∧
      ∃ pairs levels, Agrees sl (ops.foldl Map.step ∅) pairs levels := by
  have hnew : new maxLevel =
      .ok (⟨[headerNode maxLevel.toNat], 0, none, 1, 0, maxLevel.toNat⟩ : SkipList K V) :=
    if_neg (by omega)
  have hinit : Refines (⟨[headerNode maxLevel.toNat], 0, none, 1, 0, maxLevel.toNat⟩ :
      SkipList K V) (fun _ => []) ∅ := refines_headerNode (by omega) rfl
  obtain ⟨sl, c, hrun, h⟩ := hinit.run_spec ops
  exact ⟨_, sl, hnew, hrun, sl.heap.pairs (c 0), c,
    { increasing := h.sorted_pairs
      entries := h.content
      search := h.search_eq
      contains := h.contains_eq
      len := h.len_eq
      all := h.all_eq
      first := h.first_eq
      last := h.last_eq
      range := h.range_eq
      level := fun i hi => h.levelChain_eq hi
      level_increasing := fun i _ => h.shape.sorted_at i
      level_sublist := h.shape.sublist }⟩

/-- Two levels, with a key that is inserted twice and one that is deleted. -/
theorem skipList_refines_map_twoLevels : ∃ sl₀ sl : SkipList Nat Nat, new 2 = .ok sl₀ ∧
      sl₀.run [.insert 5 1 fun _ => true, .insert 3 2 fun _ => false, .insert 5 4 fun _ => false,
        .insert 9 7 fun _ => true, .delete 3] = some sl ∧
      ∃ pairs levels, Agrees sl (((((∅ : Map Nat Nat).insert 5 1).insert 3 2).insert 5 4
        |>.insert 9 7).erase 3) pairs levels :=
  skipList_refines_map 2 (by decide) _

end Solocoder.Skip
