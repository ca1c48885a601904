import Solocoder.Lib.Runs
import Solocoder.TieredCache.Proofs.WriteBackProofs

/-!
# A `Put` that fails

Under write-through `Put` changes the first level before it writes the file, and leaves it changed
if that fails.
-/

namespace Solocoder.Tiered

open Lib Function Option LruCache TieredCache

variable {c : LruCache} {key k : Key}

theorem get_fst (tc : TieredCache) (k : Key) : (tc.get k).1 = if k = [] then .error .emptyKey
      else ((tc.l1.contents k).or (tc.l2.contents k)).elim (.error .keyNotFound) .ok := by
  unfold TieredCache.get LruCache.get contents
  split
  · rfl
  · cases h1 : tc.l1.items k with
    | some entry => rfl
    | none => cases h2 : tc.l2.items k <;> rfl

theorem LruCache.Coherent.put (h : c.Coherent) (key : Key) (value : Value) :
    (c.put key value).Coherent ∧ (c.put key value).items key = some (newEntry key value) ∧
    ∀ k ≠ key, (c.items key = none ∧ c.PushedOut value.length k → (c.put key value).items k = none) ∧
      (¬ (c.items key = none ∧ c.PushedOut value.length k) →
        (c.put key value).items k = c.items k) := by
  unfold LruCache.put
  split
  next old hold =>
    refine ⟨h.replace (newEntry key value) hold rfl, update_self .., fun k hk => ?_⟩
    simp [hold, replace, newEntry, update_of_ne hk]
  next hnone =>
    have hroom := h.makeRoom value.length le_rfl
    have hkey : (LruCache.makeRoom value.length c.orderList.length c).items key = none := by
      by_cases hout : c.PushedOut value.length key
      · exact hroom.gone hout
      · exact (hroom.kept hout).trans hnone
    refine ⟨hroom.coherent.insert (newEntry key value) hkey rfl, update_self .., fun k hk => ?_⟩
    rw [show (LruCache.insert _ (newEntry key value)).items k = _ from update_of_ne hk ..,
      and_iff_right hnone]
    exact ⟨hroom.gone, hroom.kept⟩

theorem get_put_l1 (tc : TieredCache) (h1 : tc.l1.Coherent) (key : Key) (v : Value)
    (hkey : key ≠ []) : (∀ k, ({ tc with l1 := tc.l1.put key v }.get k).1 = (tc.get k).1) ↔
      (tc.get key).1 = .ok v ∧ (tc.l1.items key = none → ∀ k e, k ≠ [] → tc.l1.items k = some e →
        tc.l1.PushedOut v.length k → tc.l2.contents k = some e.value) := by
  obtain ⟨-, hself, hrest⟩ := h1.put key v
  have hget : ({ tc with l1 := tc.l1.put key v }.get key).1 = .ok v := by
    simp [get_fst, hkey, contents, hself, newEntry]
  refine ⟨fun h => ⟨(h key).symm.trans hget, fun hnew k e hk he hout => ?_⟩, fun h k => ?_⟩
  · have hne : k ≠ key := by
      rintro rfl
      simp [hnew] at he
    have hgone := (hrest k hne).1 ⟨hnew, hout⟩
    have hsame := h k
    simp only [get_fst, hk, if_false, contents, he, hgone, map_none, none_or, map_some, some_or,
      elim_some] at hsame
    cases h2 : tc.l2.items k with
    | none => simp [h2] at hsame
    | some e2 => simpa [contents, h2] using hsame
  · by_cases hkk : k = key
    · subst hkk
      exact hget.trans h.1.symm
    by_cases hk : k = []
    · simp [get_fst, hk]
    by_cases hout : tc.l1.items key = none ∧ tc.l1.PushedOut v.length k
    · have hgone : (tc.l1.put key v).contents k = none := by
        simp [contents, (hrest k hkk).1 hout]
      cases he : tc.l1.items k with
      | none =>
        have hnone : tc.l1.contents k = none := by simp [contents, he]
        simp [get_fst, hgone, hnone]
      | some e =>
        have hheld : tc.l1.contents k = some e.value := by simp [contents, he]
        simp [get_fst, hgone, hheld, h.2 hout.1 k e hk he hout.2]
    · simp [get_fst, contents, (hrest k hkk).2 hout]

/-- A `Put` that fails changes what `Get` returns, unless it fails before it starts to write, or the
key had the value and, if its entry is new in the first level, the second level has all entries that
it pushes out. -/
theorem put_error_iff (tc : TieredCache) (h1 : tc.l1.Coherent) (disk : Key → Bool) (key : Key)
    (value : Option Value) :
    ((tc.put disk key value).1 ≠ .ok () → ∀ k, ((tc.put disk key value).2.get k).1 = (tc.get k).1) ↔
    (key ≠ [] → tc.writePolicy = .writeThrough → disk key = false → ∀ v, value = some v →
      (tc.get key).1 = .ok v ∧ (tc.l1.items key = none → ∀ k e, k ≠ [] → tc.l1.items k = some e →
        tc.l1.PushedOut v.length k → tc.l2.contents k = some e.value)) := by
  by_cases hkey : key = []
  · simp [TieredCache.put, hkey]
  cases value with
  | none => simp [TieredCache.put, hkey]
  | some v =>
    cases hpolicy : tc.writePolicy with
    | writeBack => simp [TieredCache.put, hkey, hpolicy]
    | writeThrough =>
      cases hdisk : disk key with
      | true => simp [TieredCache.put, hkey, hpolicy, writeToL2, hdisk]
      | false =>
        have hput := get_put_l1 tc h1 key v hkey
        simp only [TieredCache.put, hkey, hpolicy, writeToL2, hdisk]
        simpa [hkey, hpolicy] using hput

/-! ## The states that the cache reaches -/

theorem coherent_flushEntry {tc : TieredCache} (h : tc.l1.Coherent) (disk : Key → Bool)
    (entry : CacheEntry) : (tc.flushEntry disk entry).l1.Coherent := by
  have hcount : (tc.l1.modify entry.key
      fun e => { e with failCount := entry.failCount + 1 }).Coherent :=
    h.modify fun _ => ⟨rfl, rfl, rfl⟩
  have hclear := hcount.clearDirty entry.key
  unfold flushEntry writeToL2
  grind

theorem coherent_step {tc tc' : TieredCache} {disk : Key → Bool} {op : Op} (h : tc.l1.Coherent)
    (hstep : tc.step disk op = some tc') : tc'.l1.Coherent := by
  cases op with
  | put key value =>
    obtain rfl := some_inj.1 hstep
    have hput := fun v => (h.put key v).1
    have hdirty : ∀ v, ((tc.l1.put key v).modify key
        fun e => { e with dirty := true, failCount := 0 }).Coherent :=
      fun v => (hput v).modify fun _ => ⟨rfl, rfl, rfl⟩
    unfold TieredCache.put writeToL2
    grind
  | get key =>
    obtain rfl := some_inj.1 hstep
    have hput := fun v => (h.put key v).1
    unfold TieredCache.get LruCache.get
    cases he : tc.l1.items key with
    | some e =>
      have := h.moveToFront he
      grind
    | none => grind
  | delete key =>
    obtain rfl := some_inj.1 hstep
    unfold TieredCache.delete
    split
    · exact h
    · exact (h.clearDirty key).delete key
  | flush keys =>
    obtain ⟨-, rfl⟩ : _ ∧ _ := by simpa [TieredCache.step] using hstep
    refine List.foldlRecOn (motive := fun tc : TieredCache => tc.l1.Coherent)
      keys _ h fun tc h key _ => ?_
    split
    · exact coherent_flushEntry h disk _
    · exact h
  | takeL1 =>
    obtain ⟨l1, hl1, rfl⟩ := map_eq_some_iff.1 hstep
    obtain ⟨-, rfl⟩ := takeQueue_eq_some.1 hl1
    exact h.congr rfl rfl rfl rfl
  | handleL1 =>
    obtain ⟨⟨e, l1⟩, hnext, rfl⟩ := map_eq_some_iff.1 hstep
    obtain ⟨taken, -, rfl⟩ := nextTaken_eq_some.1 hnext
    have hl1 : { tc.l1 with taken }.Coherent := h.congr rfl rfl rfl rfl
    unfold handleL1Eviction writeToL2
    grind
  | takeL2 =>
    obtain ⟨l2, -, rfl⟩ := map_eq_some_iff.1 hstep
    exact h
  | handleL2 =>
    obtain ⟨r, -, rfl⟩ := map_eq_some_iff.1 hstep
    exact h

theorem coherent_of_runs {capacity1 capacity2 : Int} {mode1 mode2 : CapacityMode}
    {policy : WritePolicy} {tc : TieredCache}
    (h : Runs (fun tc (e : (Key → Bool) × Op) => (tc.step e.1 e.2).getD tc) (fun _ _ => True)
      (new capacity1 mode1 capacity2 mode2 policy) tc) : tc.l1.Coherent := by
  refine h.invariant (P := fun tc => tc.l1.Coherent) (coherent_new _ _) fun tc e htc _ => ?_
  cases hstep : tc.step e.1 e.2 with
  | none => exact htc
  | some tc' => exact coherent_step htc hstep

def twoPuts : TieredCache :=
  [Op.put [1] (some [5]), .put [2] (some [6])].foldl
    (fun tc op => (tc.step (fun _ => true) op).getD tc) (new 1 .count 9 .count .writeThrough)

theorem coherent_twoPuts : twoPuts.l1.Coherent :=
  coherent_of_runs ((Runs.init.step (e := (fun _ => true, Op.put [1] (some [5]))) trivial).step
    (e := (fun _ => true, Op.put [2] (some [6]))) trivial)

theorem put_error_twoPuts : (twoPuts.put (fun _ => false) [1] (some [5])).1 = .error .writeFailed ∧
    twoPuts.l1.items [1] = none ∧ twoPuts.l1.PushedOut 1 [2] ∧
    ∀ k, ((twoPuts.put (fun _ => false) [1] (some [5])).2.get k).1 = (twoPuts.get k).1 := by
  refine ⟨by decide, by decide, ⟨[], by decide, by show (_ : Int) > _; decide⟩, ?_⟩
  refine (put_error_iff twoPuts coherent_twoPuts (fun _ => false) [1] (some [5])).2 ?_ (by decide)
  rintro - - - v ⟨⟩
  refine ⟨by decide, fun _ k e _ he _ => ?_⟩
  obtain rfl : k = [2] := by
    have hmem := coherent_twoPuts.mem he
    rwa [show twoPuts.l1.orderList = [[2]] by decide, List.mem_singleton] at hmem
  obtain rfl := some_inj.1 (he.symm.trans (rfl : _ = some _))
  rfl

/-- A first put that fails is seen by `Get`. -/
theorem not_put_error_unchanged :
    let tc := new 1 .count 1 .count .writeThrough
    (tc.put (fun _ => false) [1] (some [2])).1 = .error .writeFailed ∧
      (tc.get [1]).1 = .error .keyNotFound ∧
      ((tc.put (fun _ => false) [1] (some [2])).2.get [1]).1 = .ok [2] := by
  decide

end Solocoder.Tiered
