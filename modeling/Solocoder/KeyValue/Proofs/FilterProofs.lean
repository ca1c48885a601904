import Solocoder.KeyValue.Store

/-!
# What the bloom filter answers

The filter knows every key that is stored or about to be stored. `Restore` empties it, which is safe
when the filter of the snapshot answers the keys that other calls are about to store.
-/

namespace Solocoder.KeyValue

open List Option AList Call KVStore BloomFilter

variable {sum : Bytes → UInt64 × UInt64}

namespace BloomFilter

theorem getElem?_setAll (indices : List Nat) (bits : List Bool) {i : Nat} (hi : i < bits.length) :
    (indices.foldl (fun bits i => bits.set i true) bits)[i]? = some true ↔
      i ∈ indices ∨ bits[i]? = some true := by
  induction indices generalizing bits with
  | nil => simp
  | cons j indices ih =>
    rw [foldl_cons, ih _ (by rwa [length_set])]
    by_cases hij : i = j
    · subst hij
      simp [getElem?_set_self hi]
    · rw [getElem?_set_ne (Ne.symm hij), mem_cons]
      tauto

variable {bf : BloomFilter} {key : Bytes}

theorem mightContain_iff :
    bf.mightContain sum key = true ↔ ∀ i ∈ bf.indices sum key, bf.bitArray[i]? = some true := by
  unfold mightContain
  rw [List.all_eq_true]
  refine forall_congr' fun i => imp_congr_right fun _ => ?_
  cases bf.bitArray[i]? <;> simp

theorem lt_of_mem_indices {i : Nat} (h : i ∈ bf.indices sum key) : i < bf.bitArray.length := by
  obtain ⟨j, -, rfl⟩ := mem_map.mp h
  rw [bf.length_eq]
  exact Nat.mod_lt _ bf.size_pos

theorem mightContain_add_iff {other : Bytes} : (bf.add sum other).mightContain sum key = true ↔
      ∀ i ∈ bf.indices sum key, i ∈ bf.indices sum other ∨ bf.bitArray[i]? = some true := by
  rw [mightContain_iff]
  exact forall_congr' fun i => forall_congr' fun hi => getElem?_setAll _ _ (lt_of_mem_indices hi)

theorem mightContain_add_self (bf : BloomFilter) (key : Bytes) :
    (bf.add sum key).mightContain sum key = true :=
  mightContain_add_iff.mpr fun _ hi => Or.inl hi

theorem mightContain_add (other : Bytes) (h : bf.mightContain sum key = true) :
    (bf.add sum other).mightContain sum key = true :=
  mightContain_add_iff.mpr fun i hi => Or.inr (mightContain_iff.mp h i hi)

theorem mightContain_addAll (keys : List Bytes) (h : key ∈ keys ∨ bf.mightContain sum key = true) :
    (keys.foldl (·.add sum) bf).mightContain sum key = true := by
  induction keys generalizing bf with
  | nil => simpa using h
  | cons other keys ih =>
    apply ih
    rcases h with h | h
    · rcases mem_cons.mp h with rfl | h
      · exact Or.inr (mightContain_add_self bf key)
      · exact Or.inl h
    · exact Or.inr (mightContain_add other h)

end BloomFilter

def KVStore.Holds (kv : KVStore) (i : Nat) (key : Bytes) : Prop :=
  ∃ segment, kv.segments[i]? = some segment ∧ key ∈ segment

namespace KVStore

variable {kv : KVStore} {i : Nat} {key : Bytes}

theorem holds_modify {j : Nat} {f : Data → Data} {bf : BloomFilter}
    (h : Holds ⟨kv.segments.modify j f, bf⟩ i key) :
    kv.Holds i key ∨ i = j ∧ ∃ segment, kv.segments[i]? = some segment ∧ key ∈ f segment := by
  obtain ⟨segment, hsegment, hkey⟩ := h
  rw [getElem?_modify] at hsegment
  obtain ⟨old, hold, rfl⟩ := map_eq_some_iff.mp hsegment
  split at hkey
  next hij => exact Or.inr ⟨hij.symm, old, hold, hkey⟩
  next => exact Or.inl ⟨old, hold, hkey⟩

theorem length_store (kv : KVStore) (key value : Bytes) :
    (kv.store key value).segments.length = kv.segments.length :=
  length_modify ..

theorem length_storeAll (kv : KVStore) (pairs : Data) :
    (kv.storeAll pairs).segments.length = kv.segments.length := by
  unfold storeAll
  refine foldlRecOn (motive := fun c : KVStore => c.segments.length = kv.segments.length) _ _ rfl ?_
  intro c h _ _
  rw [length_store, h]

theorem bloomFilter_storeAll (kv : KVStore) (pairs : Data) :
    (kv.storeAll pairs).bloomFilter = kv.bloomFilter := by
  unfold storeAll
  exact foldlRecOn (motive := fun c : KVStore => c.bloomFilter = kv.bloomFilter) _ _ rfl fun _ h _ _ => h

theorem getSegmentIndex_congr {kv' : KVStore} (h : kv'.segments.length = kv.segments.length)
    (key : Bytes) : kv'.getSegmentIndex key = kv.getSegmentIndex key := by
  unfold getSegmentIndex
  rw [h]

theorem Holds.of_store {other value : Bytes} (h : (kv.store other value).Holds i key) :
    kv.Holds i key ∨ i = kv.getSegmentIndex key ∧ key = other := by
  rcases holds_modify h with h | ⟨rfl, segment, hsegment, hkey⟩
  · exact Or.inl h
  · rcases (mem_insert segment).mp hkey with rfl | hkey
    · exact Or.inr ⟨rfl, rfl⟩
    · exact Or.inl ⟨segment, hsegment, hkey⟩

theorem Holds.of_storeAll {pairs : Data} (h : (kv.storeAll pairs).Holds i key) :
    kv.Holds i key ∨ i = kv.getSegmentIndex key ∧ key ∈ pairs.keys := by
  unfold storeAll AList.keys at *
  generalize pairs.entries = entries at h
  induction entries generalizing kv with
  | nil => exact Or.inl h
  | cons pair entries ih =>
    rcases ih h with h | ⟨hi, hkey⟩
    · rcases h.of_store with h | ⟨hi, rfl⟩
      · exact Or.inl h
      · exact Or.inr ⟨hi, mem_cons_self⟩
    · rw [getSegmentIndex_congr (length_store kv _ _)] at hi
      exact Or.inr ⟨hi, mem_cons_of_mem _ hkey⟩

theorem Holds.of_remove {other : Bytes} (h : (kv.remove other).Holds i key) : kv.Holds i key := by
  rcases holds_modify h with h | ⟨-, segment, hsegment, hkey⟩
  · exact h
  · exact ⟨segment, hsegment, (mem_erase.mp hkey).2⟩

theorem not_holds_clear (kv : KVStore) (i : Nat) (key : Bytes) : ¬ kv.clear.Holds i key := by
  rintro ⟨segment, hsegment, hkey⟩
  unfold clear at hsegment
  rw [getElem?_map] at hsegment
  obtain ⟨_, -, rfl⟩ := map_eq_some_iff.mp hsegment
  exact notMem_empty key hkey

end KVStore

namespace System

/-- A call has put the key into the filter and is about to store it. -/
def Added (s : System) (key : Bytes) : Prop := ∃ call ∈ s.calls, key ∈ call.added

/-- What holds between the sections. -/
structure Covered (sum : Bytes → UInt64 × UInt64) (s : System) : Prop where
  stored : ∀ i key, s.kv.Holds i key →
    i = s.kv.getSegmentIndex key ∧ s.kv.bloomFilter.mightContain sum key = true
  added : ∀ key, s.Added key → s.kv.bloomFilter.mightContain sum key = true
  emptied : s.locked = true → ∀ i key, ¬ s.kv.Holds i key
  alone : s.calls.countP holdsAll ≤ 1

variable {s : System} {i : Nat}

theorem locked_iff : s.locked = true ↔ 0 < s.calls.countP holdsAll := by
  unfold locked
  rw [List.any_eq_true, countP_pos_iff]

theorem countP_move {old : Call} (h : s.calls[i]? = some old) (new : Call) (kv : KVStore) :
    (s.move i new kv).calls.countP holdsAll + (if old.holdsAll then 1 else 0) =
      s.calls.countP holdsAll + if new.holdsAll then 1 else 0 := by
  obtain ⟨hi, hold⟩ := List.getElem?_eq_some_iff.mp h
  unfold move
  rw [countP_set hi]
  have hpos : old.holdsAll = true → 0 < s.calls.countP holdsAll := fun hall =>
    countP_pos_iff.mpr ⟨old, mem_of_getElem? h, hall⟩
  split <;> split <;> simp_all

theorem Added.of_move {new : Call} {kv : KVStore} {key : Bytes} (h : (s.move i new kv).Added key) :
    key ∈ new.added ∨ s.Added key := by
  obtain ⟨call, hcall, hkey⟩ := h
  rcases mem_or_eq_of_mem_set hcall with hcall | rfl
  · exact Or.inr ⟨call, hcall, hkey⟩
  · exact Or.inl hkey

section

variable (h : s.Covered sum)
include h

theorem Covered.move {old new : Call} {kv : KVStore}
    (hcall : s.calls[i]? = some old) (hold : old.holdsAll = false) (hnew : new.holdsAll = false)
    (hlength : kv.segments.length = s.kv.segments.length)
    (hfilter : ∀ key, key ∈ new.added ∨ s.kv.bloomFilter.mightContain sum key = true →
      kv.bloomFilter.mightContain sum key = true)
    (hstored : ∀ j key, kv.Holds j key → s.kv.Holds j key ∨ s.locked = false ∧ j =
      s.kv.getSegmentIndex key ∧ key ∈ old.added) : (s.move i new kv).Covered sum := by
  have hcount := countP_move hcall new kv
  rw [hold, hnew] at hcount
  have hlocked : (s.move i new kv).locked = true → s.locked = true := by
    rw [locked_iff, locked_iff]
    exact fun h => by omega
  constructor
  · intro j key hkey
    unfold System.move
    rw [getSegmentIndex_congr hlength]
    rcases hstored j key hkey with hkey | ⟨-, hj, hkey⟩
    · exact ⟨(h.stored j key hkey).1, hfilter key (Or.inr (h.stored j key hkey).2)⟩
    · have hadded : s.Added key := ⟨old, mem_of_getElem? hcall, hkey⟩
      exact ⟨hj, hfilter key (Or.inr (h.added key hadded))⟩
  · intro key hkey
    rcases hkey.of_move with hkey | hkey
    · exact hfilter key (Or.inl hkey)
    · exact hfilter key (Or.inr (h.added key hkey))
  · intro hall j key hkey
    rcases hstored j key hkey with hkey | ⟨hfree, -⟩
    · exact h.emptied (hlocked hall) j key hkey
    · rw [hlocked hall] at hfree
      cases hfree
  · have := h.alone
    omega

theorem Covered.clear {snapshot : Data}
    (hcall : s.calls[i]? = some (.restore (some snapshot))) (hfree : ¬ s.locked = true) :
    (s.move i (.restoreCleared snapshot) s.kv.clear).Covered sum := by
  have hcount := countP_move hcall (.restoreCleared snapshot) s.kv.clear
  rw [locked_iff] at hfree
  constructor
  · exact fun j key hkey => absurd hkey (not_holds_clear _ _ _)
  · intro key hkey
    rcases hkey.of_move with hkey | hkey
    · cases hkey
    · exact h.added key hkey
  · exact fun _ j key => not_holds_clear _ _ _
  · simp only [holdsAll, Bool.false_eq_true, if_false, if_true] at hcount
    omega

theorem Covered.fill {snapshot : Data} (hcall : s.calls[i]? = some (.restoreCleared snapshot))
    (hspared : ∀ key, s.Added key → (s.kv.refill sum snapshot).mightContain sum key = true) :
    (s.move i .done (s.kv.fill sum snapshot)).Covered sum := by
  have hcount := countP_move hcall .done (s.kv.fill sum snapshot)
  simp only [holdsAll, Bool.false_eq_true, if_false, if_true] at hcount
  have hall : s.locked = true :=
    any_eq_true.mpr ⟨_, mem_of_getElem? hcall, rfl⟩
  have halone := h.alone
  constructor
  · intro j key hkey
    have hindex : (s.kv.fill sum snapshot).getSegmentIndex key = s.kv.getSegmentIndex key :=
      getSegmentIndex_congr (length_storeAll s.kv snapshot) key
    rcases hkey.of_storeAll with hkey | ⟨hj, hkey⟩
    · exact absurd hkey (h.emptied hall j key)
    · exact ⟨hj.trans hindex.symm, mightContain_addAll _ (Or.inl hkey)⟩
  · intro key hkey
    rcases hkey.of_move with hkey | hkey
    · cases hkey
    · exact hspared key hkey
  · intro hlocked
    rw [locked_iff] at hlocked
    omega
  · omega

/-- The filter of the snapshot of a `Restore` answers every key that another call is about to store.
-/
def Spares (sum : Bytes → UInt64 × UInt64) (s : System) : Event → Prop
  | .call _ => True
  | .advance i => ∀ snapshot, s.calls[i]? = some (.restoreCleared snapshot) →
      ∀ key, s.Added key → (s.kv.refill sum snapshot).mightContain sum key = true

theorem Covered.advance {call : Call} (hcall : s.calls[i]? = some call)
    (hspares : s.Spares sum (.advance i)) : (s.advance sum i call).Covered sum := by
  cases call with
  | put key value =>
    refine h.move hcall rfl rfl rfl (fun other hother => ?_) (fun j other hother => Or.inl hother)
    rcases hother with hother | hother
    · cases mem_singleton.mp hother
      exact mightContain_add_self _ key
    · exact mightContain_add key hother
  | putAdded key value =>
    unfold System.advance
    dsimp only
    split
    · exact h
    next hfree =>
      refine h.move hcall rfl rfl (length_store s.kv key value) (fun other hother => ?_)
        (fun j other hother => ?_)
      · exact hother.resolve_left not_mem_nil
      · rcases hother.of_store with hother | ⟨hj, rfl⟩
        · exact Or.inl hother
        · exact Or.inr ⟨Bool.eq_false_iff.mpr hfree, hj, mem_singleton_self _⟩
  | batchPut pairs =>
    unfold System.advance
    dsimp only
    split
    · exact h.move hcall rfl rfl rfl (fun other hother => hother.resolve_left not_mem_nil)
        (fun j other hother => Or.inl hother)
    · exact h.move hcall rfl rfl rfl (fun other => mightContain_addAll pairs.keys)
        (fun j other hother => Or.inl hother)
  | batchAdded pairs =>
    unfold System.advance
    dsimp only
    split
    · exact h
    next hfree =>
      refine h.move hcall rfl rfl (length_storeAll s.kv pairs) (fun other hother => ?_)
        (fun j other hother => ?_)
      · rw [bloomFilter_storeAll]
        exact hother.resolve_left not_mem_nil
      · rcases hother.of_storeAll with hother | ⟨hj, hkey⟩
        · exact Or.inl hother
        · exact Or.inr ⟨Bool.eq_false_iff.mpr hfree, hj, hkey⟩
  | delete key =>
    unfold System.advance
    dsimp only
    split
    · exact h
    · exact h.move hcall rfl rfl (length_modify ..)
        (fun other hother => hother.resolve_left not_mem_nil)
        (fun j other hother => Or.inl hother.of_remove)
  | restore snapshot =>
    cases snapshot with
    | none =>
      exact h.move hcall rfl rfl rfl (fun other hother => hother.resolve_left not_mem_nil)
        (fun j other hother => Or.inl hother)
    | some snapshot =>
      unfold System.advance
      dsimp only
      split
      · exact h
      next hfree => exact h.clear hcall hfree
  | restoreCleared snapshot => exact h.fill hcall (hspares snapshot hcall)
  | done => exact h

theorem Covered.step {e : Event} (hspares : s.Spares sum e) : (s.step sum e).Covered sum := by
  cases e with
  | call op =>
    have hadded : op.toCall.added = [] := by cases op <;> rfl
    have hholds : op.toCall.holdsAll = false := by cases op <;> rfl
    have hcount : (s.step sum (.call op)).calls.countP holdsAll = s.calls.countP holdsAll := by
      unfold System.step
      rw [countP_append, countP_singleton, hholds]
      simp
    refine ⟨h.stored, fun key hkey => ?_, fun hlocked => ?_, ?_⟩
    · obtain ⟨call, hcall, hkey⟩ := hkey
      rcases mem_append.mp hcall with hcall | hcall
      · exact h.added key ⟨call, hcall, hkey⟩
      · cases mem_singleton.mp hcall
        rw [hadded] at hkey
        cases hkey
    · rw [locked_iff, hcount, ← locked_iff] at hlocked
      exact h.emptied hlocked
    · rw [hcount]
      exact h.alone
  | advance i =>
    unfold System.step
    dsimp only
    split
    next call hcall => exact h.advance hcall hspares
    · exact h

/-- Every event of the run spares such keys. -/
def SparesAll (sum : Bytes → UInt64 × UInt64) : System → List Event → Prop
  | _, [] => True
  | s, e :: events => s.Spares sum e ∧ SparesAll sum (s.step sum e) events

theorem Covered.run {events : List Event} (hspares : s.SparesAll sum events) :
    (s.run sum events).Covered sum := by
  induction events generalizing s with
  | nil => exact h
  | cons e events ih => exact ih (h.step hspares.1) hspares.2

end

/-- The new store, without calls. -/
def init (segmentCount : Int) (bf : BloomFilter) : System :=
  ⟨newKVStoreWithConfig segmentCount bf, []⟩

theorem covered_init (sum : Bytes → UInt64 × UInt64) (segmentCount : Int) (bf : BloomFilter) :
    (init segmentCount bf).Covered sum := by
  refine ⟨fun i key hkey => ?_, fun key hkey => ?_, fun h => ?_, Nat.zero_le _⟩
  · obtain ⟨segment, hsegment, hkey⟩ := hkey
    have hempty := eq_of_mem_replicate (mem_of_getElem? hsegment)
    subst hempty
    exact absurd hkey (notMem_empty key)
  · obtain ⟨call, hcall, -⟩ := hkey
    cases hcall
  · cases h

/-- If every `Restore` spares the keys about to be stored, `Get` returns every stored value. -/
theorem stored_answered (sum : Bytes → UInt64 × UInt64) (segmentCount : Int)
    (size hashCount : UInt64) (hsize : 0 < size.toNat) (events : List Event)
    (h : (init segmentCount (newBloomFilter size hashCount hsize)).SparesAll sum events)
    (kv : KVStore)
    (hkv : kv = ((init segmentCount (newBloomFilter size hashCount hsize)).run sum events).kv)
    (i : Nat) (segment : Data) (key value : Bytes) (hsegment : kv.segments[i]? = some segment)
    (hvalue : segment.lookup key = some value) :
    kv.bloomFilter.mightContain sum key = true ∧ kv.get sum key = some value := by
  have hholds : kv.Holds i key :=
    ⟨segment, hsegment, lookup_isSome.mp (isSome_of_eq_some hvalue)⟩
  have hcovered := (covered_init sum segmentCount (newBloomFilter size hashCount hsize)).run h
  rw [hkv] at hholds
  obtain ⟨hi, hfilter⟩ := hcovered.stored i key hholds
  rw [← hkv] at hi hfilter
  refine ⟨hfilter, ?_⟩
  unfold KVStore.get
  rw [if_pos hfilter, ← hi, hsegment]
  exact hvalue

def sumA (_ : Bytes) : UInt64 × UInt64 := (0xca978112ca1bbdca, 0xfac231b39a23dc4d)

/-- A `Restore` of a snapshot runs between the two sections of `Put("a", "1")`. -/
def restoreWithinPut (snapshot : Data) : List Event :=
  [.call (.put [97] [49]), .advance 0, .call (.restore (some snapshot)), .advance 1, .advance 1,
    .advance 0]

/-- The snapshot holds the key. -/
theorem stored_answered_keyInSnapshot :
    let kv := ((init 16 (newBloomFilter 2 2 (by decide))).run sumA
      (restoreWithinPut (AList.singleton [97] [48]))).kv
    kv.bloomFilter.mightContain sumA [97] = true ∧ kv.get sumA [97] = some [49] := by
  refine stored_answered sumA 16 2 2 (by decide) (restoreWithinPut (singleton [97] [48])) ?_
    _ rfl 12 (singleton [97] [49]) [97] [49] rfl rfl
  refine ⟨trivial, ?_, trivial, ?_, ?_, ?_, trivial⟩
  · intro _ h
    cases h
  · intro _ h
    cases h
  · intro snapshot h key hkey
    cases h
    obtain ⟨call, hcall, hkey⟩ := hkey
    have hkey : key = [97] := by
      rcases mem_cons.mp hcall with rfl | hcall
      · exact mem_singleton.mp hkey
      · cases mem_singleton.mp hcall
        cases hkey
    rw [hkey]
    rfl
  · intro _ h
    cases h

/-- The snapshot is empty: both calls return, the key is stored, and `Get` does not find it. -/
theorem hidden_restoreWithinPut :
    let s := (init 16 (newBloomFilter 2 2 (by decide))).run sumA (restoreWithinPut ∅)
    s.calls = [.done, .done] ∧ (∃ segment ∈ s.kv.segments, segment.lookup [97] = some [49]) ∧
      s.kv.bloomFilter.mightContain sumA [97] = false ∧ s.kv.get sumA [97] = none := by
  refine ⟨rfl, ⟨singleton [97] [49], ?_, rfl⟩, rfl, rfl⟩
  exact mem_of_getElem? (i := 12) rfl

end System

end Solocoder.KeyValue
