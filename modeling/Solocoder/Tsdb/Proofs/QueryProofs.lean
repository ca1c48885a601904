import Solocoder.Tsdb.Engine

/-!
# Proofs: what a query of the time-series engine returns

The engine holds the points that were written and not removed, in the order of their timestamps, with
an index of their tags. A write and a turn of the cleanup build the index anew.
-/

namespace Solocoder.Tsdb

open List

variable {F : Type} {st : Sorter F} {data : List (DataPoint F)}

theorem foldl_or {α σ : Type} {P : σ → Prop} {Q : α → Prop} {f : σ → α → σ}
    (h : ∀ s a, P (f s a) ↔ P s ∨ Q a) (l : List α) (s : σ) :
    P (l.foldl f s) ↔ P s ∨ ∃ a ∈ l, Q a := by
  induction l generalizing s with
  | nil => simp
  | cons a l ih => simp [ih, h, or_assoc]

theorem mem_addTags (index : TagIndex) (j : Nat) (tags : Tags) (k v : String) (i : Nat) :
    i ∈ (addTags index j tags k v).getD [] ↔
      i ∈ (index k v).getD [] ∨ i = j ∧ ⟨k, v⟩ ∈ tags.entries := by
  rw [addTags, foldl_or (P := fun index : TagIndex => i ∈ (index k v).getD [])
    (Q := fun kv => i = j ∧ ⟨k, v⟩ = kv)]
  · simp [and_comm]
  · rintro index ⟨k', v'⟩
    by_cases hk : k = k'
    · subst hk
      by_cases hv : v = v'
      · subst hv
        simp
      · simp [hv]
    · simp [hk]

theorem mem_buildTagIndex (k v : String) (i : Nat) :
    i ∈ (buildTagIndex data k v).getD [] ↔ ∃ p ∈ data[i]?, p.tags.lookup k = some v := by
  rw [buildTagIndex, foldl_or (P := fun index : TagIndex => i ∈ (index k v).getD [])
    (Q := fun p => i = p.2 ∧ ⟨k, v⟩ ∈ p.1.tags.entries) fun index p => mem_addTags ..]
  simp only [Option.getD_none, not_mem_nil, false_or, ← AList.mem_lookup_iff]
  constructor
  · rintro ⟨⟨p, j⟩, hp, rfl, hkv⟩
    exact ⟨p, mem_zipIdx_iff_getElem?.1 hp, hkv⟩
  · rintro ⟨p, hp, hkv⟩
    exact ⟨(p, i), mem_zipIdx_iff_getElem?.2 hp, rfl, hkv⟩

theorem intersect_spec (index : TagIndex) (tags : List (Sigma fun _ : String => String))
    (resultSet : Option (List Nat)) (hset : ∀ set ∈ resultSet, set.Nodup)
    (htags : resultSet = none → tags ≠ []) :
    (intersect index tags resultSet).Nodup ∧ ∀ i, i ∈ intersect index tags resultSet ↔
      (∀ set ∈ resultSet, i ∈ set) ∧ ∀ kv ∈ tags, i ∈ (index kv.1 kv.2).getD [] := by
  induction tags generalizing resultSet with
  | nil =>
    cases resultSet with
    | none => exact absurd rfl (htags rfl)
    | some set => simpa [intersect] using hset
  | cons kv tags ih =>
    unfold intersect
    cases hindex : index kv.1 kv.2 with
    | none => simp [hindex]
    | some indices =>
      have hnext : (resultSet.elim indices.dedup fun set => set.filter (· ∈ indices)).Nodup ∧
          ∀ i, i ∈ (resultSet.elim indices.dedup fun set => set.filter (· ∈ indices)) ↔
            (∀ set ∈ resultSet, i ∈ set) ∧ i ∈ indices := by
        cases resultSet with
        | none => simp [nodup_dedup]
        | some set => simpa using (hset set rfl).filter _
      dsimp only
      generalize (resultSet.elim indices.dedup fun set => set.filter (· ∈ indices)) = next at hnext ⊢
      split
      next hnil =>
        subst hnil
        refine ⟨nodup_nil, fun i => ⟨nofun, fun h => ?_⟩⟩
        refine (hnext.2 i).2 ⟨h.1, ?_⟩
        simpa [hindex] using h.2 kv mem_cons_self
      next =>
        obtain ⟨hnodup, hmem⟩ := ih (some next) (by simpa using hnext.1) nofun
        refine ⟨hnodup, fun i => ?_⟩
        rw [hmem]
        simp [hnext.2, hindex, and_assoc]

/-- The point has all the tags. -/
def DataPoint.carries (p : DataPoint F) (tags : Tags) : Bool :=
  tags.entries.all fun kv => p.tags.lookup kv.1 = some kv.2

namespace TSEngine

variable {e : TSEngine F}

theorem filterByTags_spec (hindex : e.tagIndex = buildTagIndex e.data) (tags : Tags) :
    e.filterByTags tags ~
      (range e.data.length).filter fun i => (e.data[i]?).any (·.carries tags) := by
  unfold filterByTags
  split
  next hnil =>
    rw [filter_eq_self.2]
    intro i hi
    simp [DataPoint.carries, hnil, getElem?_eq_getElem (mem_range.1 hi)]
  next hne =>
    obtain ⟨hnodup, hmem⟩ := intersect_spec e.tagIndex tags.entries none nofun fun _ => hne
    refine (perm_ext_iff_of_nodup hnodup (nodup_range.filter _)).2 fun i => ?_
    rw [hmem, hindex]
    simp only [mem_buildTagIndex, mem_filter, mem_range]
    cases hi : e.data[i]? with
    | none => simpa using exists_mem_of_ne_nil _ hne
    | some p => simp [DataPoint.carries, (List.getElem?_eq_some_iff.1 hi).1]

end TSEngine

theorem mapM_getElem? {indices : List Nat} (h : ∀ i ∈ indices, i < data.length) :
    indices.mapM (data[·]?) = some (indices.filterMap (data[·]?)) := by
  induction indices with
  | nil => rfl
  | cons i indices ih =>
    obtain ⟨hi, hrest⟩ := forall_mem_cons.1 h
    simp [mapM_cons, ih hrest, getElem?_eq_getElem hi]

theorem filterMap_range (data : List (DataPoint F)) (c : DataPoint F → Bool) :
    ((range data.length).filter fun i => (data[i]?).any c).filterMap (data[·]?) = data.filter c := by
  induction data with
  | nil => rfl
  | cons p data ih =>
    rw [length_cons, range_succ_eq_map]
    cases hp : c p <;> simp [hp, filter_map, filterMap_map, Function.comp_def, ih]

theorem drop_removeCount (cutoff : Int) (n : Nat)
    (hsorted : data.Pairwise (·.timestamp ≤ ·.timestamp)) :
    (data.drop (removeCount cutoff n data)).filter (cutoff ≤ ·.timestamp) =
        data.filter (cutoff ≤ ·.timestamp) ∧
      (removeCount cutoff n data < n →
        data.drop (removeCount cutoff n data) = data.filter (cutoff ≤ ·.timestamp)) := by
  induction data generalizing n with
  | nil => simp
  | cons p data ih =>
    obtain ⟨hp, hrest⟩ := pairwise_cons.1 hsorted
    cases n with
    | zero => simp [removeCount]
    | succ n =>
      unfold removeCount
      split
      next hge =>
        refine ⟨rfl, fun _ => (filter_eq_self.2 fun q hq => ?_).symm⟩
        rcases mem_cons.1 hq with rfl | hq
        · simpa using hge
        · simpa using le_trans hge (hp q hq)
      next hlt =>
        rw [drop_succ_cons, filter_cons_of_neg (by simpa using hlt)]
        exact ⟨(ih n hrest).1, fun h => (ih n hrest).2 (by omega)⟩

namespace TSEngine

variable {e : TSEngine F}

/-- The points of the engine are sorted and indexed, and `live` are all of them. -/
structure Holds (e : TSEngine F) (live : List (DataPoint F)) : Prop where
  sorted : e.data.Pairwise (·.timestamp ≤ ·.timestamp)
  index : e.tagIndex = buildTagIndex e.data
  perm : e.data ~ live
  opened : e.closed = false

theorem cleanupLoop_spec {cutoff : Int} {fuel : Nat} {live : List (DataPoint F)} (h : Holds e live)
    (hfuel : e.data.length < fuel) :
    (cleanupLoop cutoff fuel e).data = e.data.filter (cutoff ≤ ·.timestamp) ∧
      Holds (cleanupLoop cutoff fuel e) (live.filter (cutoff ≤ ·.timestamp)) := by
  induction fuel generalizing e live with
  | zero => omega
  | succ fuel ih =>
    obtain ⟨hrest, hlast⟩ := drop_removeCount cutoff e.batchSize h.sorted
    have hdrop : Holds (rebuildTagIndex { e with data := e.data.drop (removeCount cutoff e.batchSize e.data) })
        (e.data.drop (removeCount cutoff e.batchSize e.data)) :=
      ⟨h.sorted.sublist (drop_sublist _ _), rfl, .refl _, h.opened⟩
    unfold cleanupLoop
    dsimp only
    split
    next hzero =>
      rw [hzero, drop_zero] at hlast
      have heq := hlast e.batchSize_pos
      refine ⟨heq, h.sorted, h.index, ?_, h.opened⟩
      rw [heq]
      exact h.perm.filter _
    next hpos =>
      split
      next hlt =>
        refine ⟨hlast hlt, hdrop.sorted, rfl, ?_, h.opened⟩
        show e.data.drop _ ~ _
        rw [hlast hlt]
        exact h.perm.filter _
      next =>
        have hne : e.data ≠ [] := by
          intro hnil
          rw [hnil] at hpos
          cases hn : e.batchSize <;> simp [hn, removeCount] at hpos
        have hlen : (e.data.drop (removeCount cutoff e.batchSize e.data)).length < fuel := by
          have := length_pos_of_ne_nil hne
          rw [length_drop]
          omega
        obtain ⟨hdata, hholds⟩ := ih hdrop hlen
        refine ⟨hdata.trans hrest, hholds.sorted, hholds.index, ?_, hholds.opened⟩
        rw [hdata.trans hrest]
        exact h.perm.filter _

/-- The points written and not cleaned up. -/
def live (points : List (DataPoint F)) : Op F → List (DataPoint F)
  | .write new => points ++ (checkPoints new).toOption.getD []
  | .cleanup cutoff => points.filter (cutoff ≤ ·.timestamp)

variable {points : List (DataPoint F)}

theorem Holds.cleanup (h : Holds e points) (cutoff : Int) :
    (e.cleanupExpired cutoff).data = e.data.filter (cutoff ≤ ·.timestamp) ∧
      Holds (e.cleanupExpired cutoff) (points.filter (cutoff ≤ ·.timestamp)) := by
  rw [cleanupExpired, h.opened]
  exact cleanupLoop_spec h (Nat.lt_succ_self _)

theorem Holds.step (h : Holds e points) (op : Op F) : Holds (e.step st op) (live points op) := by
  cases op with
  | cleanup cutoff => exact (h.cleanup cutoff).2
  | write new =>
    show Holds (e.write st new).1 (points ++ (checkPoints new).toOption.getD [])
    unfold write
    rw [h.opened]
    cases new with
    | nil => exact ⟨h.sorted, h.index, (append_nil points).symm ▸ h.perm, h.opened⟩
    | cons p new =>
      cases checkPoints (p :: new) with
      | error err => exact ⟨h.sorted, h.index, (append_nil points).symm ▸ h.perm, h.opened⟩
      | ok valid =>
        exact ⟨st.sorted _, rfl, (st.perm _).trans (h.perm.append_right valid), rfl⟩

theorem Holds.run (h : Holds e points) (ops : List (Op F)) :
    Holds (e.run st ops) (ops.foldl live points) := by
  induction ops generalizing e points with
  | nil => exact h
  | cons op ops ih => exact ih (h.step op)

theorem Holds.query (h : Holds e points) {start stop : Int} (hle : start ≤ stop) (tags : Tags) :
    ∃ result, e.query st start stop tags = .ok result ∧
      result.Pairwise (·.timestamp ≤ ·.timestamp) ∧
      result ~ points.filter fun p => (p.timestamp ≥ start ∧ p.timestamp ≤ stop) ∧ p.carries tags := by
  have hindices := filterByTags_spec h.index tags
  have hrange : ∀ i ∈ e.filterByTags tags, i < e.data.length := by
    intro i hi
    exact mem_range.1 (mem_of_mem_filter (hindices.subset hi))
  unfold TSEngine.query
  rw [h.opened, if_neg (by simp), if_neg (by omega), mapM_getElem? hrange]
  refine ⟨_, rfl, st.sorted _, (st.perm _).trans ?_⟩
  have hfound : (e.filterByTags tags).filterMap (e.data[·]?) ~ points.filter (·.carries tags) := by
    refine (hindices.filterMap _).trans ?_
    rw [filterMap_range]
    exact h.perm.filter _
  refine (hfound.filter _).trans (.of_eq ?_)
  rw [filter_filter]
  simp

/-- A query returns the points written and not removed since, within its range and with its tags; a
cleanup removes the points before its cutoff, and a failed write changes nothing. -/
theorem query_exact (st : Sorter F) (batchSize : Nat) (hpos : 0 < batchSize) (ops : List (Op F))
    (e : TSEngine F) (he : (newTSEngine batchSize hpos).run st ops = e) :
    (∀ start stop tags, start ≤ stop → ∃ result, e.query st start stop tags = .ok result ∧
      result.Pairwise (·.timestamp ≤ ·.timestamp) ∧
      result ~ (ops.foldl live []).filter fun p =>
        (p.timestamp ≥ start ∧ p.timestamp ≤ stop) ∧ p.carries tags) ∧
    (∀ cutoff, (e.cleanupExpired cutoff).data = e.data.filter (cutoff ≤ ·.timestamp)) ∧
    ∀ points, (e.write st points).2 ≠ .ok () → (e.write st points).1 = e := by
  have hnew : Holds (newTSEngine batchSize hpos : TSEngine F) [] := ⟨.nil, rfl, .refl _, rfl⟩
  have h : Holds e (ops.foldl live []) := he ▸ hnew.run ops
  refine ⟨fun start stop tags hle => h.query hle tags, fun cutoff => (h.cleanup cutoff).1, ?_⟩
  intro points
  unfold write
  split
  · exact fun _ => rfl
  · split
    · exact fun _ => rfl
    · cases checkPoints points with
      | error err => exact fun _ => rfl
      | ok valid => exact fun hfails => absurd rfl hfails

def insertionSorter : Sorter Unit where
  sort := insertionSort (·.timestamp ≤ ·.timestamp)
  perm := perm_insertionSort _
  sorted l := by
    have : Std.Total fun p q : DataPoint Unit => p.timestamp ≤ q.timestamp := ⟨fun _ _ => le_total _ _⟩
    have : IsTrans (DataPoint Unit) fun p q => p.timestamp ≤ q.timestamp := ⟨fun _ _ _ => le_trans⟩
    exact pairwise_insertionSort _ l

def onHost (host : String) : Tags := ⟨[⟨"host", host⟩], by simp⟩

/-- Three points, the first of which is removed. -/
def threePoints : List (Op Unit) :=
  [.write [some ⟨5, (), onHost "a"⟩, some ⟨8, (), onHost "b"⟩], .write [some ⟨7, (), onHost "a"⟩],
    .cleanup 6]

theorem query_exact_cleanup :
    ((newTSEngine 1 Nat.one_pos).run insertionSorter threePoints).query insertionSorter 0 9
      (onHost "a") = .ok [⟨7, (), onHost "a"⟩] := by
  obtain ⟨result, hquery, -, hperm⟩ :=
    (query_exact insertionSorter 1 Nat.one_pos threePoints _ rfl).1 0 9 (onHost "a") (by decide)
  rw [hquery, perm_singleton.1 hperm]

end TSEngine

end Solocoder.Tsdb
