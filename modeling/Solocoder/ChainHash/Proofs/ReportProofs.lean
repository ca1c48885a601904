import Solocoder.ChainHash.Proofs.RangeProofs

/-!
# The migration reports of `internal/chainhash`

The ranges of a report are those of the points of the node, and their labels are the next points of
other nodes.
-/

namespace Solocoder.ChainHash

open Lib List Option AList

namespace HashRing

variable {hashKey : String → UInt64} {hr big small : HashRing} {n t : String} {h p q : UInt64}

/-- The node at a point of the ring. -/
def ownerOf (hr : HashRing) (p : UInt64) : String := (hr.vnodeMap.lookup p).getD ""

def nextNode (hr : HashRing) (n : String) (h : UInt64) : Option String :=
  ((walk hr.ring h).find? fun q => hr.ownerOf q ≠ n).map hr.ownerOf

/-! ## Labels -/

theorem nextNode_of_walk (hp : hr.ownerOf p = n) (hq : hr.ownerOf q = n) {rest : List UInt64}
    (hwp : walk hr.ring p = p :: q :: rest) (hwq : walk hr.ring q = q :: (rest ++ [p])) :
    hr.nextNode n q = hr.nextNode n p := by
  rw [nextNode, nextNode, hwp, hwq]
  simp [hp, hq]

theorem nextNode_of_touch (hs : hr.ring.Pairwise (· < ·)) (hp : hr.ownerOf p = n)
    (hqmem : q ∈ hr.ring) (hq : hr.ownerOf q = n) (htouch : (rangeOf hr.ring q).start = p + 1) :
    hr.nextNode n q = hr.nextNode n p := by
  have hnext : ∀ {rest}, walk hr.ring p = p :: q :: rest → hr.nextNode n q = hr.nextNode n p :=
    fun hwp => nextNode_of_walk hp hq hwp (walk_next hs hwp)
  obtain ⟨before, after, hring⟩ := append_of_mem hqmem
  rw [hring] at hs htouch hnext
  rcases eq_nil_or_concat before with rfl | ⟨before, x, rfl⟩
  · rw [nil_append] at hs htouch hnext
    -- `p` is the largest point
    rw [rangeOf_cons hs] at htouch
    have hlast : (q :: after).getLastD 0 = p := (UInt64.add_left_inj 1).1 htouch
    rcases eq_nil_or_concat after with rfl | ⟨mid, x, rfl⟩
    · obtain rfl : q = p := hlast
      rfl
    · rw [concat_eq_append] at hs hlast hnext
      obtain rfl : x = p := by
        rw [← cons_append, getLastD_eq_getLast?, getLast?_concat] at hlast
        exact hlast
      exact hnext (walk_of_split (q :: mid) [] hs)
  · rw [concat_eq_append, append_assoc, singleton_append] at hs htouch hnext
    rw [rangeOf_append hs] at htouch
    obtain rfl : x = p := (UInt64.add_left_inj 1).1 htouch
    exact hnext (walk_of_split before (q :: after) hs)

theorem nextOther_eq {idx : ℕ} (hidx : idx < hr.ring.length) {fuel k : ℕ}
    (hfuel : fuel + k = hr.ring.length + 1) (hk : 0 < k) :
    hr.nextOther n idx fuel ((idx + k) % hr.ring.length) =
      (((hr.ring.rotate idx).drop k).find? fun q => hr.ownerOf q ≠ n).map hr.ownerOf := by
  induction fuel generalizing k with
  | zero =>
    rw [drop_eq_nil_of_le (by rw [length_rotate]; omega)]
    rfl
  | succ fuel ih =>
    rw [nextOther]
    by_cases hend : k = hr.ring.length
    · rw [hend, Nat.add_mod_right, Nat.mod_eq_of_lt hidx, if_pos rfl, drop_eq_nil_of_le]
      · rfl
      · rw [length_rotate]
    · have hlt : k < hr.ring.length := by omega
      have hne : (idx + k) % hr.ring.length ≠ idx := by
        rcases Nat.lt_or_ge (idx + k) hr.ring.length with hsmall | hlarge
        · rw [Nat.mod_eq_of_lt hsmall]
          omega
        · rw [Nat.mod_eq_sub_mod hlarge, Nat.mod_eq_of_lt (by omega)]
          omega
      have hpos : (idx + k) % hr.ring.length < hr.ring.length := Nat.mod_lt _ (by omega)
      have hget : (hr.ring.rotate idx)[k]? = some (hr.ring.getD ((idx + k) % hr.ring.length) 0) := by
        rw [getElem?_rotate hlt, Nat.add_comm, getD_eq_getElem _ _ hpos, getElem?_eq_getElem hpos]
      rw [if_neg hne, drop_eq_getElem?_toList_append, hget]
      have hnext : ((idx + k) % hr.ring.length + 1) % hr.ring.length =
          (idx + (k + 1)) % hr.ring.length := by
        rw [Nat.mod_add_mod, Nat.add_assoc]
      rw [hnext, ih (by omega) (by omega)]
      rw [toList_some, singleton_append]
      by_cases hother : hr.ownerOf (hr.ring.getD ((idx + k) % hr.ring.length) 0) = n
      · rw [find?_cons_of_neg (by simpa using hother)]
        exact if_neg (not_not.2 hother)
      · rw [find?_cons_of_pos (by simpa using hother)]
        exact if_pos hother

theorem takesOver_eq (hs : hr.ring.Pairwise (· < ·)) (hp : p ∈ hr.ring) (hown : hr.ownerOf p = n) :
    hr.takesOver n p = hr.nextNode n p := by
  have hidx := searchRing_lt (ne_nil_of_mem hp) p
  rw [takesOver, nextOther_eq hidx (by omega) (by omega), rotate_searchRing hs, nextNode]
  -- the walk from a point begins with it
  have hhead : (walk hr.ring p).head? = some p :=
    (head?_walk hs).2 ⟨hp, Or.inl ⟨le_rfl, fun q _ hle => hle⟩⟩
  obtain ⟨rest, hrest⟩ := head?_eq_some_iff.1 hhead
  rw [hrest]
  simp [hown]

/-! ## The ring without the node -/

/-- `small` is `big` without the points of `n`. -/
structure Loses (n : String) (big small : HashRing) : Prop where
  ring : small.ring = big.ring.filter (big.ownerOf · ≠ n)
  owner : ∀ p ∈ small.ring, small.ownerOf p = big.ownerOf p

namespace Loses

variable (hloses : Loses n big small)

include hloses

theorem head?_walk_map : (walk small.ring h).head?.map small.ownerOf = big.nextNode n h := by
  have hwalk : walk small.ring h = (walk big.ring h).filter (big.ownerOf · ≠ n) := by
    rw [hloses.ring, walk_filter]
  have hfind : (walk small.ring h).head? = (walk big.ring h).find? fun q => big.ownerOf q ≠ n := by
    rw [hwalk, head?_filter]
  rw [nextNode, ← hfind]
  refine Option.map_congr fun p hp => ?_
  exact hloses.owner p (mem_walk.1 (mem_of_mem_head? hp))

theorem fromNode_eq (hs : small.ring.Pairwise (· < ·)) : small.fromNode h = big.nextNode n h := by
  rw [← hloses.head?_walk_map, head?_walk_eq_getElem hs]
  rfl

theorem ownerAt_small (hs : small.ring.Pairwise (· < ·)) :
    small.ownerAt h = .ok t ↔ big.nextNode n h = some t := by
  rw [ownerAt_eq hs, ← hloses.head?_walk_map]
  cases (walk small.ring h).head? with
  | none => simp
  | some p =>
    simp only [elim_some, Except.ok.injEq, map_some, some_inj]
    rfl

end Loses

theorem ownerAt_ok (hs : hr.ring.Pairwise (· < ·)) :
    hr.ownerAt h = .ok n ↔ ∃ p, (walk hr.ring h).head? = some p ∧ hr.ownerOf p = n := by
  rw [ownerAt_eq hs]
  cases (walk hr.ring h).head? with
  | none => simp
  | some p =>
    simp only [elim_some, Except.ok.injEq, some_inj, exists_eq_left']
    rfl

/-- A hash that `n` owns and `t` owns without `n` lies in the range of a point of `n` that `t` follows. -/
theorem Loses.exact (hloses : Loses n big small) (hs : big.ring.Pairwise (· < ·))
    (hs' : small.ring.Pairwise (· < ·)) :
    (∃ p ∈ big.ring, big.ownerOf p = n ∧ (rangeOf big.ring p).contains h ∧
        big.nextNode n p = some t) ↔
      big.ownerAt h = .ok n ∧ small.ownerAt h = .ok t := by
  have hlabel : ∀ {p}, (walk big.ring h).head? = some p → big.nextNode n p = big.nextNode n h := by
    intro p hp
    obtain ⟨rest, hrest⟩ := head?_eq_some_iff.1 hp
    rw [nextNode, nextNode, walk_eq_of_head hs hrest, hrest]
  rw [ownerAt_ok hs, hloses.ownerAt_small hs']
  constructor
  · rintro ⟨p, hp, hown, hcontains, hnext⟩
    have hhead := (contains_rangeOf hs hp).1 hcontains
    exact ⟨⟨p, hhead, hown⟩, (hlabel hhead).symm.trans hnext⟩
  · rintro ⟨⟨p, hhead, hown⟩, hnext⟩
    have hp := mem_walk.1 (mem_of_mem_head? hhead)
    exact ⟨p, hp, hown, (contains_rangeOf hs hp).2 hhead, (hlabel hhead).trans hnext⟩

/-! ## Reports -/

def labelled (next : UInt64 → Option String) (ranges : List HashRange) : List (String × HashRange) :=
  ranges.filterMap fun r => (next r.stop).map fun node => (node, r)

/-- The merged ranges of the points of `n`, with the nodes behind them. -/
def ranged (hr : HashRing) (n : String) (points : List UInt64) : List (String × HashRange) :=
  labelled (hr.nextNode n) (mergeRanges (points.map (rangeOf hr.ring)))

variable {ranges : List HashRange} {points : List UInt64} (next : UInt64 → Option String)

theorem groupRanges_labelled (hapart : ranges.Pairwise Apart) (t : String) {r : HashRange} :
    r ∈ groupRanges (labelled next ranges) t ↔ r ∈ ranges ∧ next r.stop = some t := by
  have hfilter : ((labelled next ranges).filter (·.1 = t)).map Prod.snd =
      ranges.filter (next ·.stop = some t) := by
    clear hapart
    induction ranges with
    | nil => rfl
    | cons r ranges ih =>
      cases hnext : next r.stop with
      | none => simpa [labelled, hnext] using ih
      | some node => by_cases hnode : node = t <;> simpa [labelled, hnext, hnode] using ih
  -- the ranges of one node are still apart
  rw [groupRanges, hfilter, mergeRanges_apart (hapart.sublist filter_sublist), mem_filter,
    decide_eq_true_eq]

variable (migrations : List (String × HashRange))

def Reported (node : String) (h : UInt64) : Prop :=
  node ∈ groupNodes migrations ∧ ∃ r ∈ groupRanges migrations node, r.contains h

theorem exists_report (report : String → MigrationInfo) (other : MigrationInfo → String)
    (hranges : ∀ node, (report node).affectedRanges = groupRanges migrations node)
    (hother : ∀ node, other (report node) = node) (t : String) (h : UInt64) :
    (∃ info ∈ (groupNodes migrations).map report,
      other info = t ∧ ∃ r ∈ info.affectedRanges, r.contains h) ↔ Reported migrations t h := by
  constructor
  · rintro ⟨info, hinfo, rfl, hr⟩
    obtain ⟨node, hnode, rfl⟩ := mem_map.1 hinfo
    rw [hranges] at hr
    rw [hother]
    exact ⟨hnode, hr⟩
  · rintro ⟨hnode, hr⟩
    refine ⟨report t, mem_map_of_mem hnode, hother t, ?_⟩
    rw [hranges]
    exact hr

theorem reported_labelled (next : UInt64 → Option String) (hapart : ranges.Pairwise Apart) :
    Reported (labelled next ranges) t h ↔ ∃ r ∈ ranges, r.contains h ∧ next r.stop = some t := by
  constructor
  · rintro ⟨-, r, hr, hcontains⟩
    obtain ⟨hr, hnext⟩ := (groupRanges_labelled next hapart t).1 hr
    exact ⟨r, hr, hcontains, hnext⟩
  · rintro ⟨r, hr, hcontains, hnext⟩
    refine ⟨?_, r, (groupRanges_labelled next hapart t).2 ⟨hr, hnext⟩, hcontains⟩
    rw [groupNodes, mem_dedup, List.mem_map]
    exact ⟨(t, r), mem_filterMap.2 ⟨r, hr, by rw [hnext]; rfl⟩, rfl⟩

/-- The node owns the smallest and the largest point of a ring with other nodes, and the largest point is
not the last hash. -/
def ClosesCircle (hr : HashRing) (n : String) : Prop :=
  TouchesAround hr.ring (hr.ownerOf · = n) ∧ ∃ p ∈ hr.ring, hr.ownerOf p ≠ n

theorem nextNode_isSome {x : UInt64} (hx : x ∈ hr.ring) (hother : hr.ownerOf x ≠ n) (h : UInt64) :
    ∃ t, hr.nextNode n h = some t := by
  have hfind : ((walk hr.ring h).find? fun q => hr.ownerOf q ≠ n).isSome := by
    rw [find?_isSome]
    exact ⟨x, mem_walk.2 hx, decide_eq_true hother⟩
  obtain ⟨q, hq⟩ := isSome_iff_exists.1 hfind
  exact ⟨hr.ownerOf q, by rw [nextNode, hq]; rfl⟩

/-- The reports are exact unless the ranges of the node touch around the end of the hashes. -/
theorem reported_exact_iff (hloses : Loses n big small) (hs : big.ring.Pairwise (· < ·))
    (hs' : small.ring.Pairwise (· < ·))
    (hpoints : points.Perm (big.ring.filter (big.ownerOf · = n))) :
    (∀ h t, Reported (big.ranged n points) t h ↔
        big.ownerAt h = .ok n ∧ small.ownerAt h = .ok t) ↔ ¬ big.ClosesCircle n := by
  by_cases hother : ∃ x ∈ big.ring, big.ownerOf x ≠ n
  · obtain ⟨x, hx, hne⟩ := hother
    have hnotOwner : decide (big.ownerOf x = n) = false := decide_eq_false hne
    by_cases haround : TouchesAround big.ring (big.ownerOf · = n)
    · -- the smallest point is lost
      refine iff_of_false ?_ (not_not.2 ⟨haround, x, hx, hne⟩)
      obtain ⟨hapart, first, hhead, hfirst, hlost⟩ := affected_loses hs hpoints haround hx hnotOwner
      intro hexact
      obtain ⟨t, ht⟩ := nextNode_isSome hx hne first
      have hmem : first ∈ big.ring := mem_of_mem_head? hhead
      have hwalk : (walk big.ring first).head? = some first :=
        (head?_walk hs).2 ⟨hmem, Or.inl ⟨le_rfl, fun q _ hle => hle⟩⟩
      have howned : big.ownerAt first = .ok n ∧ small.ownerAt first = .ok t :=
        ⟨(ownerAt_ok hs).2 ⟨first, hwalk, of_decide_eq_true hfirst⟩,
          (hloses.ownerAt_small hs').2 ht⟩
      obtain ⟨r, hr, hcontains, -⟩ := (reported_labelled _ hapart).1 ((hexact first t).2 howned)
      exact hlost r hr hcontains
    · refine iff_of_true (fun h t => ?_) fun hcloses => haround hcloses.1
      have hspec : MergeSpec (big.nextNode n) (points.map (rangeOf big.ring)) _ :=
        affected_spec hs hpoints haround fun p hp hfp q hq hfq htouch =>
          nextNode_of_touch hs (of_decide_eq_true hfp) hq (of_decide_eq_true hfq) htouch
      rw [ranged, reported_labelled _ hspec.apart, hspec.covers, ← hloses.exact hs hs']
      constructor
      · rintro ⟨r, hr, hcontains, hnext⟩
        obtain ⟨p, hp, rfl⟩ := mem_map.1 hr
        obtain ⟨hp, hown⟩ := mem_filter.1 (hpoints.mem_iff.1 hp)
        rw [stop_rangeOf] at hnext
        exact ⟨p, hp, of_decide_eq_true hown, hcontains, hnext⟩
      · rintro ⟨p, hp, hown, hcontains, hnext⟩
        refine ⟨rangeOf big.ring p, mem_map.2 ⟨p, ?_, rfl⟩, hcontains, ?_⟩
        · exact hpoints.mem_iff.2 (mem_filter.2 ⟨hp, decide_eq_true hown⟩)
        · rw [stop_rangeOf]
          exact hnext
  · -- without other points nothing moves
    have hnone : ∀ h, big.nextNode n h = none := by
      intro h
      rw [nextNode, map_eq_none_iff, find?_eq_none]
      intro x hx hne
      exact hother ⟨x, mem_walk.1 hx, of_decide_eq_true hne⟩
    refine iff_of_true (fun h t => ?_) fun hcloses => hother hcloses.2
    refine iff_of_false (fun hreported => ?_) fun howned => ?_
    · have hempty : big.ranged n points = [] := by
        rw [ranged, labelled, filterMap_eq_nil_iff]
        intro r _
        rw [hnone]
        rfl
      rw [hempty] at hreported
      cases hreported.1
    · have := (hloses.ownerAt_small hs').1 howned.2
      rw [hnone] at this
      cases this

/-! ## The rings of a run -/

section Run

variable (hinv : RingInv hashKey hr)

include hinv

theorem RingInv.ownerOf_eq (hp : p ∈ hr.ring) :
    hr.ownerOf p = n ↔ hr.vnodeMap.lookup p = some n := by
  obtain ⟨m, hm⟩ := hinv.lookup_of_mem hp
  rw [ownerOf, hm, getD_some, some_inj]

theorem RingInv.virtualHashes_perm (hsep : Separated hashKey hr) {info : NodeInfo}
    (hinfo : hr.nodes.lookup n = some info) :
    (hr.virtualHashes hashKey n info.weight).Perm (hr.ring.filter (hr.ownerOf · = n)) := by
  have hnodup : (hr.ring.filter (hr.ownerOf · = n)).Nodup :=
    (hinv.sorted.imp fun h => h.ne).filter _
  rw [perm_ext_iff_of_nodup (hsep.nodup hinfo) hnodup]
  intro p
  rw [mem_filter, decide_eq_true_eq]
  constructor
  · intro hp
    have hlookup := (hinv.owner p n).2 ⟨info, hinfo, hp⟩
    have hmem := (hinv.listed p).2 (lookup_isSome.1 (by rw [hlookup]; rfl))
    exact ⟨hmem, (hinv.ownerOf_eq hmem).2 hlookup⟩
  · rintro ⟨hmem, hown⟩
    obtain ⟨info', hinfo', hp⟩ := (hinv.owner p n).1 ((hinv.ownerOf_eq hmem).1 hown)
    cases hinfo.symm.trans hinfo'
    exact hp

end Run

theorem MorePoints.loses (hmore : MorePoints n small big) (hinv : RingInv hashKey small)
    (hinv' : RingInv hashKey big) (hnone : ∀ p, small.vnodeMap.lookup p ≠ some n) :
    Loses n big small := by
  obtain ⟨hring, howner⟩ := hinv'.owned.eq_filter "" hinv.owned (n := n) fun m p => by
    rw [← hinv.owner, ← hinv'.owner]
    refine ⟨fun hm => ⟨?_, hmore.kept hm⟩, fun hm => hmore.fresh hm.2 hm.1⟩
    rintro rfl
    exact hnone p hm
  exact ⟨hring, howner⟩

/-! ### `RemoveNode` -/

/-- The reports of `RemoveNode` describe the change of ownership. -/
def RemoveExact (hashKey : String → UInt64) (hr : HashRing) (n : String) : Prop :=
  ∃ infos, (hr.removeNode hashKey n).2 = some (.ok infos) ∧ ∀ h t,
    (∃ info ∈ infos, info.toNode = t ∧ ∃ r ∈ info.affectedRanges, r.contains h) ↔
      hr.ownerAt h = .ok n ∧ (hr.removeNode hashKey n).1.ownerAt h = .ok t

theorem removeMigrations_eq (hs : hr.ring.Pairwise (· < ·))
    (hpoints : points.Perm (hr.ring.filter (hr.ownerOf · = n))) :
    hr.removeMigrations n (mergeRanges (points.map (rangeOf hr.ring))) = hr.ranged n points := by
  refine filterMap_congr fun r hr' => ?_
  obtain ⟨a, ha, hstop⟩ := mem_map.1 ((stop_mergeRanges _).1 (mem_map_of_mem hr'))
  obtain ⟨p, hp, rfl⟩ := mem_map.1 ha
  obtain ⟨hp, hown⟩ := mem_filter.1 (hpoints.mem_iff.1 hp)
  rw [← hstop, stop_rangeOf, takesOver_eq hs hp (of_decide_eq_true hown)]

theorem removeExact_iff (hinv : RingInv hashKey hr) (hsep : Separated hashKey hr)
    (hn : n ∈ hr.nodes) (htwo : 2 ≤ hr.nodes.keys.length) :
    RemoveExact hashKey hr n ↔ ¬ hr.ClosesCircle n := by
  obtain ⟨info, hinfo⟩ := isSome_iff_exists.1 (lookup_isSome.2 hn)
  have hname : n ≠ "" := fun heq => hinv.named (heq ▸ hn)
  have hpoints := hinv.virtualHashes_perm hsep hinfo
  have hinv' := hinv.removed hinfo
  have hloses : Loses n hr (hr.removed hashKey n info.weight) :=
    (morePoints_removed hinv hinfo).loses hinv' hinv fun p hp =>
      ((hinv.lookup_erased hinfo).1 hp).1 rfl
  have hranges : rangesOf hr.ring (hr.virtualHashes hashKey n info.weight) =
      some ((hr.virtualHashes hashKey n info.weight).map (rangeOf hr.ring)) := by
    refine if_neg ?_
    rintro ⟨hnil, hne⟩
    rw [hnil] at hpoints
    exact hne hpoints.eq_nil
  have hcall : hr.removeNode hashKey n = (hr.removed hashKey n info.weight,
      some (.ok ((groupNodes (hr.ranged n (hr.virtualHashes hashKey n info.weight))).map
        fun toNode => ⟨groupRanges (hr.ranged n (hr.virtualHashes hashKey n info.weight)) toNode, n,
          toNode⟩))) := by
    simp only [removeNode, if_neg hname, hinfo, calculateRemoveMigration, hranges, removeReports,
      if_neg (show ¬ hr.nodes.keys.length ≤ 1 by omega), map_some, removed,
      removeMigrations_eq hinv.sorted hpoints]
  rw [← reported_exact_iff hloses hinv.sorted hinv'.sorted hpoints, RemoveExact, hcall]
  generalize hr.ranged n (hr.virtualHashes hashKey n info.weight) = migrations
  have hreported := exists_report migrations
    (fun toNode => ⟨groupRanges migrations toNode, n, toNode⟩) MigrationInfo.toNode (fun _ => rfl)
    fun _ => rfl
  simp only [some_inj, Except.ok.injEq, exists_eq_left', hreported]

/-! ### `CalculateAddMigration` -/

/-- `CalculateAddMigration` does not panic, and its reports describe the change of ownership. -/
def AddExact (hashKey : String → UInt64) (hr : HashRing) (n : String) (weight : ℤ) : Prop :=
  ∃ infos, hr.calculateAddMigration hashKey n weight = some (.ok infos) ∧ ∀ h f,
    (∃ info ∈ infos, info.fromNode = f ∧ ∃ r ∈ info.affectedRanges, r.contains h) ↔
      hr.ownerAt h = .ok f ∧ (hr.addNode hashKey n weight).1.ownerAt h = .ok n

theorem sortHashes_eq {l l' : List UInt64} (hperm : l.Perm l') : sortHashes l = sortHashes l' := by
  refine Perm.eq_of_pairwise (fun a b _ _ => le_antisymm)
    (pairwise_insertionSort (· ≤ ·) l) (pairwise_insertionSort (· ≤ ·) l') ?_
  exact (perm_insertionSort _ l).trans (hperm.trans (perm_insertionSort _ l').symm)

theorem mapM_labelled (hsome : ∀ r ∈ ranges, (next r.stop).isSome) :
    (ranges.mapM fun r => (next r.stop).map fun node => (node, r)) = some (labelled next ranges) := by
  induction ranges with
  | nil => rfl
  | cons r ranges ih =>
    obtain ⟨node, hnode⟩ := isSome_iff_exists.1 (hsome r mem_cons_self)
    have hrest := ih fun r' hr' => hsome r' (mem_cons_of_mem _ hr')
    have hlabelled : labelled next (r :: ranges) = (node, r) :: labelled next ranges := by
      rw [labelled, filterMap_cons, hnode]
      rfl
    rw [mapM_cons, hnode, hrest, hlabelled]
    rfl

/-- A new node on a ring with other nodes, or without virtual nodes: `CalculateAddMigration` returns the
reports of the ring with the node. -/
theorem addReports_eq (hs : hr.ring.Pairwise (· < ·)) (hloses : Loses n big hr)
    (hring : big.ring = sortHashes (hr.ring ++ points)) (hnonempty : hr.ring = [] → points = []) :
    hr.addReports n points = some ((groupNodes (big.ranged n points)).map
      fun node => ⟨groupRanges (big.ranged n points) node, node, n⟩) := by
  have hranges : rangesOf big.ring points = some (points.map (rangeOf big.ring)) := by
    refine if_neg ?_
    rintro ⟨hnil, hne⟩
    obtain ⟨p, hp⟩ := exists_mem_of_ne_nil _ hne
    have hmem : p ∈ big.ring := by
      rw [hring]
      exact mem_sortHashes.2 (mem_append_right _ hp)
    rw [hnil] at hmem
    cases hmem
  have hmigrations : hr.addMigrations (mergeRanges (points.map (rangeOf big.ring))) =
      some (big.ranged n points) := by
    rw [addMigrations]
    simp only [hloses.fromNode_eq hs]
    refine mapM_labelled _ fun r hr' => ?_
    obtain ⟨a, ha, -⟩ := mem_map.1 ((stop_mergeRanges _).1 (mem_map_of_mem hr'))
    obtain ⟨p, hp, -⟩ := mem_map.1 ha
    have hne : hr.ring ≠ [] := fun hnil => ne_nil_of_mem hp (hnonempty hnil)
    rw [← hloses.fromNode_eq hs, fromNode, getElem?_eq_getElem (searchRing_lt hne _)]
    rfl
  simp only [addReports, ← hring, hranges, hmigrations, bind_eq_bind, bind_some]

theorem addReports_eq_none (hnil : hr.ring = []) (hne : points ≠ []) :
    hr.addReports n points = none := by
  rw [addReports]
  cases hranges : rangesOf (sortHashes (hr.ring ++ points)) points with
  | none => rfl
  | some ranges =>
    have hmigrations : hr.addMigrations (mergeRanges ranges) = none := by
      have hranges' : points.map (rangeOf (sortHashes (hr.ring ++ points))) = ranges := by
        rw [rangesOf] at hranges
        split at hranges
        · cases hranges
        · exact some_inj.1 hranges
      have hmerged : mergeRanges ranges ≠ [] := by
        intro hmerged
        have := (stop_mergeRanges ranges).2 hmerged
        rw [← hranges', map_eq_nil_iff] at this
        exact hne this
      obtain ⟨r, rs, hrs⟩ := exists_cons_of_ne_nil hmerged
      rw [addMigrations, hrs, mapM_cons, fromNode, hnil]
      rfl
    simp only [hmigrations, bind_eq_bind, bind_some, bind_none]

theorem addExact_iff (hinv : RingInv hashKey hr) {weight : ℤ} (hname : n ≠ "") (hn : n ∉ hr.nodes)
    (hweight : 0 < weight) (hsep : Separated hashKey (hr.addNode hashKey n weight).1) :
    AddExact hashKey hr n weight ↔ 0 ≤ hr.calculateVirtualNodeCount weight ∧
      (hr.ring = [] → hr.calculateVirtualNodeCount weight = 0) ∧
      ¬ (hr.addNode hashKey n weight).1.ClosesCircle n := by
  have hadded : (hr.addNode hashKey n weight).1 = hr.added hashKey n weight := by
    rw [addNode, addNodeWithInfo, if_neg hname, if_neg (show ¬ weight ≤ 0 by omega), if_neg hn]
    rfl
  rw [AddExact, hadded]
  rw [hadded] at hsep
  have hinv' := hinv.added ⟨hname, hn⟩ hsep
  have hnone : ∀ p, hr.vnodeMap.lookup p ≠ some n := by
    intro p hp
    obtain ⟨info, hinfo, -⟩ := (hinv.owner p n).1 hp
    exact hn (lookup_isSome.1 (by rw [hinfo]; rfl))
  have hloses := (morePoints_added hinv ⟨hname, hn⟩ hsep).loses hinv hinv' hnone
  have hself : (hr.added hashKey n weight).nodes.lookup n = some ⟨weight, ""⟩ := lookup_insert _
  have hperm : (sortHashes (hr.virtualHashes hashKey n weight)).Perm
      (hr.virtualHashes hashKey n weight) := perm_insertionSort _ _
  have hcall : hr.calculateAddMigration hashKey n weight =
      if hr.calculateVirtualNodeCount weight < 0 then none
      else (hr.addReports n (sortHashes (hr.virtualHashes hashKey n weight))).map .ok := by
    rw [calculateAddMigration, if_neg hname, if_neg (show ¬ weight ≤ 0 by omega), if_neg hn]
  generalize sortHashes (hr.virtualHashes hashKey n weight) = points at hperm hcall
  have hring : (hr.added hashKey n weight).ring = sortHashes (hr.ring ++ points) := by
    exact sortHashes_eq (hperm.symm.append_left hr.ring)
  have hown := hinv'.virtualHashes_perm hsep hself
  have hpoints := hperm.trans hown
  have hzero : points = [] ↔ hr.calculateVirtualNodeCount weight ≤ 0 := by
    rw [← length_eq_zero_iff, hperm.length_eq, virtualHashes, length_map, length_range]
    omega
  by_cases hneg : hr.calculateVirtualNodeCount weight < 0
  · refine iff_of_false ?_ fun h => absurd h.1 (not_le.2 hneg)
    rintro ⟨infos, heq, -⟩
    rw [hcall, if_pos hneg] at heq
    cases heq
  · rw [if_neg hneg] at hcall
    by_cases hpanic : hr.ring = [] ∧ hr.calculateVirtualNodeCount weight ≠ 0
    · refine iff_of_false ?_ fun h => hpanic.2 (h.2.1 hpanic.1)
      have hne : points ≠ [] := fun hnil => by
        have := hzero.1 hnil
        omega
      rintro ⟨infos, heq, -⟩
      rw [hcall, addReports_eq_none hpanic.1 hne] at heq
      cases heq
    · have hcount : hr.ring = [] → hr.calculateVirtualNodeCount weight = 0 :=
        fun hnil => not_not.1 fun hne => hpanic ⟨hnil, hne⟩
      rw [and_iff_right (not_lt.1 hneg), and_iff_right hcount,
        ← reported_exact_iff hloses hinv'.sorted hinv.sorted hpoints, hcall,
        addReports_eq hinv.sorted hloses hring fun hnil => hzero.2 (hcount hnil).le]
      generalize (hr.added hashKey n weight).ranged n points = migrations
      have hreported := exists_report migrations
        (fun node => ⟨groupRanges migrations node, node, n⟩) MigrationInfo.fromNode (fun _ => rfl)
        fun _ => rfl
      simp only [map_some, some_inj, Except.ok.injEq, exists_eq_left', hreported]
      exact forall₂_congr fun h f => by rw [and_comm]

/-! ## The result -/

/-- The reports are exact unless the node owns both ends of a ring with other nodes; for
`CalculateAddMigration` the ring must not be empty. -/
theorem reports_exact_iff (hashKey : String → UInt64) (virtualNodes : ℤ) (hr₀ : HashRing)
    (hnew : newHashRing virtualNodes = .ok hr₀) (ops : List Op)
    (hsep : ∀ pre, pre <+: ops → Separated hashKey (hr₀.run hashKey pre)) (hr : HashRing)
    (hrun : hr = hr₀.run hashKey ops) (n : String) :
    (2 ≤ hr.nodes.keys.length → n ∈ hr.nodes → (RemoveExact hashKey hr n ↔ ¬ hr.ClosesCircle n)) ∧
    ∀ weight, 0 < weight → n ≠ "" → n ∉ hr.nodes →
      Separated hashKey (hr.addNode hashKey n weight).1 →
      (AddExact hashKey hr n weight ↔ 0 ≤ hr.calculateVirtualNodeCount weight ∧
        (hr.ring = [] → hr.calculateVirtualNodeCount weight = 0) ∧
        ¬ (hr.addNode hashKey n weight).1.ClosesCircle n) := by
  subst hrun
  have hinv := (ringInv_newHashRing hnew).run hsep
  exact ⟨fun htwo hn => removeExact_iff hinv (hsep ops (prefix_refl ops)) hn htwo,
    fun weight hweight hname hn hsep' => addExact_iff hinv hname hn hweight hsep'⟩

def emptyRing : HashRing := ⟨2, ∅, ∅, []⟩

theorem separated_sample {ops : List Op} (hnodup : ∀ pre ∈ ops.inits,
      ((emptyRing.run sampleHash pre).nodes.entries.flatMap fun node =>
        (emptyRing.run sampleHash pre).virtualHashes sampleHash node.1 node.2.weight).Nodup) :
    ∀ pre, pre <+: ops → Separated sampleHash (emptyRing.run sampleHash pre) :=
  fun pre hpre => separated_of_nodup (hnodup pre ((mem_inits _ _).2 hpre))

/-- The points of `a` lie between those of `e`: its reports are exact. -/
theorem reports_exact_innerNode :
    RemoveExact sampleHash (emptyRing.run sampleHash [.addNode "e" 1, .addNode "a" 1]) "a" ∧
      AddExact sampleHash (emptyRing.run sampleHash [.addNode "e" 1]) "a" 1 := by
  have hcloses : ¬ (emptyRing.run sampleHash [.addNode "e" 1, .addNode "a" 1]).ClosesCircle "a" := by
    rintro ⟨⟨first, last, hhead, -, hfirst, -⟩, -⟩
    obtain rfl : 2020369598570706791 = first := some_inj.1 hhead
    exact absurd hfirst (by decide)
  constructor
  · refine ((reports_exact_iff sampleHash 2 emptyRing rfl [.addNode "e" 1, .addNode "a" 1]
      (separated_sample ?_) _ rfl "a").1 ?_ ?_).2 hcloses
    all_goals decide
  · refine ((reports_exact_iff sampleHash 2 emptyRing rfl [.addNode "e" 1] (separated_sample ?_) _ rfl
      "a").2 1 (by decide) (by decide) ?_ ?_).2 ⟨?_, ?_, hcloses⟩
    · decide
    · decide
    · exact separated_of_nodup (by decide)
    · decide
    · decide

/-- The node `e` owns both ends, and the hash of `k`, which it loses to `a`, is in no range; on an
empty ring `CalculateAddMigration` panics. -/
theorem not_exact_outerNode :
    let hr := emptyRing.run sampleHash [.addNode "e" 1, .addNode "a" 1]
    (hr.removeNode sampleHash "e").2 =
        some (.ok [⟨[⟨11845293420662967246, 15739307372303813490⟩], "e", "a"⟩]) ∧
      ¬ HashRange.contains ⟨11845293420662967246, 15739307372303813490⟩ (sampleHash "k") ∧
      hr.ownerAt (sampleHash "k") = .ok "e" ∧
      (hr.removeNode sampleHash "e").1.ownerAt (sampleHash "k") = .ok "a" ∧
      emptyRing.calculateAddMigration sampleHash "a" 1 = none := by
  rw [HashRange.contains_of_le (by decide)]
  decide

end HashRing

end Solocoder.ChainHash
