import Mathlib.Data.Finmap
import Mathlib.Data.List.TakeWhile
import Solocoder.BPlusTree.Proofs.LeafInsertProofs
import Solocoder.BPlusTree.Proofs.LeafDeleteProofs

/-!
# The B+ tree is a sorted map

`Search` and `RangeScan` read the line of entries, and the updates change it as a finite map.
-/

namespace Solocoder.BPlus

open List Option Finmap BPlusTree

variable {K V : Type} [LinearOrder K]

section Read

variable {t : BPlusTree K V} {m : Nat} {Ls : List (List Ptr)} {L : List Ptr} {S : List K}

namespace BPlusTree

theorem search_spec (hi : Counted t m Ls L S) (key : K) :
    ∃ r, t.search key = some r ∧ ∀ v, r = some v ↔ (key, v) ∈ entries t.heap L := by
  by_cases hc : t.count = 0
  · have hnil : entries t.heap L = [] := length_eq_zero_iff.1 (hi.count.symm.trans hc)
    exact ⟨none, by simp [search, hc], by simp [hnil]⟩
  · have hs := hi.toShape
    obtain ⟨A, p, B, SA, SB, rfl, rfl, hA, hB, hX, hY, hf⟩ := hs.findLeaf key
    by_cases hkey : key ∈ (t.heap p).keys
    · obtain ⟨ka, kb, va, w, vb, hk, hv, hva, hka, hkb⟩ := hs.exists_entry hA hkey
      refine ⟨some w, ?_, fun v => ?_⟩
      · simp [search, hc, hf, hk, idxOf?_append hka, hv, ← hva]
      · rw [Shape.mem_entries_iff hA hB hX hY, hk, hv, zip_append hva.symm, mem_append, zip_cons_cons,
          mem_cons, Prod.mk.injEq, some_inj]
        constructor
        · rintro rfl
          exact .inr (.inl ⟨rfl, rfl⟩)
        · rintro (h | ⟨-, rfl⟩ | h)
          · exact absurd (of_mem_zip h).1 hka
          · rfl
          · exact absurd (of_mem_zip h).1 hkb
    · have hidx : (t.heap p).keys.idxOf? key = none := by simpa using hkey
      refine ⟨none, by simp [search, hf, hidx], fun v => ?_⟩
      rw [Shape.mem_entries_iff hA hB hX hY]
      constructor
      · intro h
        cases h
      · intro h
        exact absurd (of_mem_zip h).1 hkey

theorem scanKeys_spec (last : K) {ks : List K} {vs : List V} (hlen : vs.length = ks.length) :
    scanKeys last ks vs = some ((ks.zip vs).takeWhile (fun e => decide (e.1 ≤ last)),
      (ks.zip vs).any fun e => decide (last < e.1)) := by
  induction ks generalizing vs with
  | nil => simp [scanKeys]
  | cons k ks ih =>
    obtain ⟨v, vs, rfl⟩ := exists_cons_of_length_pos
      (by rw [hlen]; exact Nat.succ_pos _ : 0 < vs.length)
    rw [length_cons, length_cons, Nat.add_right_cancel_iff] at hlen
    by_cases hk : last < k
    · simp [scanKeys, hk]
    · simp [scanKeys, hk, ih hlen, not_lt.1 hk]

theorem takeWhile_append_of_any {α : Type} {f : α → Bool} {X Y : List α}
    (h : X.any fun e => !f e) : (X ++ Y).takeWhile f = X.takeWhile f := by
  rw [takeWhile_append, if_neg]
  intro hlen
  have hall := takeWhile_eq_self_iff.1 (( takeWhile_prefix f).eq_of_length hlen)
  obtain ⟨x, hx, hfx⟩ := any_eq_true.1 h
  simp [hall x hx] at hfx

theorem scanLeaves_spec {h : Ptr → Node K V} (last : K) {pr : Option Ptr} {p : Ptr} {B : List Ptr}
    (hl : Linked h pr (p :: B) none)
    (hv : ∀ q ∈ p :: B, (h q).values.length = (h q).keys.length) {fuel : Nat}
    (hf : B.length < fuel) (i : Nat) :
    scanLeaves h last fuel (some p) i = some ((((h p).keys.zip (h p).values).drop i ++
      entries h B).takeWhile fun e => decide (e.1 ≤ last)) := by
  induction B generalizing pr p fuel i with
  | nil =>
    obtain ⟨fuel, rfl⟩ := Nat.exists_eq_add_of_lt hf
    obtain ⟨-, hn, -⟩ := hl
    have hlen : ((h p).values.drop i).length = ((h p).keys.drop i).length := by
      rw [length_drop, length_drop, hv p (by simp)]
    simp [scanLeaves, scanKeys_spec last hlen, hn, entries, zip, drop_zipWith]
  | cons q B ih =>
    obtain ⟨fuel, rfl⟩ := Nat.exists_eq_add_of_lt hf
    obtain ⟨-, hn, hl⟩ := hl
    have hn : (h p).next = some q := hn
    have hlen : ((h p).values.drop i).length = ((h p).keys.drop i).length := by
      rw [length_drop, length_drop, hv p (by simp)]
    have hrest := ih hl (fun r hr => hv r (mem_cons_of_mem p hr))
      (show B.length < (q :: B).length + fuel by rw [length_cons]; omega) 0
    have hent : entries h (q :: B) = (h q).keys.zip (h q).values ++ entries h B := rfl
    have hzip : ((h p).keys.zip (h p).values).drop i =
        ((h p).keys.drop i).zip ((h p).values.drop i) := by
      simp [zip, drop_zipWith]
    simp only [scanLeaves, scanKeys_spec last hlen, hn, hrest, hent, hzip, drop_zero]
    by_cases hany : (((h p).keys.drop i).zip ((h p).values.drop i)).any fun e => decide (last < e.1)
    · have hmet : (((h p).keys.drop i).zip ((h p).values.drop i)).any
          fun e => !decide (e.1 ≤ last) := by simpa using hany
      rw [takeWhile_append_of_any hmet, hany]
      rfl
    · have hall : ∀ e ∈ ((h p).keys.drop i).zip ((h p).values.drop i), decide (e.1 ≤ last) := by
        simpa using hany
      rw [takeWhile_append_of_pos hall, takeWhile_eq_self_iff.2 hall, Bool.eq_false_iff.2 hany]
      rfl

theorem mem_takeWhile_of_sorted {R : List (K × V)} (hs : (R.map Prod.fst).Pairwise (· < ·))
    {last : K} {e : K × V} :
    e ∈ R.takeWhile (fun e => decide (e.1 ≤ last)) ↔ e ∈ R ∧ e.1 ≤ last := by
  have hcut := Lib.takeWhile_eq_filter (p := fun e => decide (e.1 ≤ last))
    ((pairwise_map.1 hs).imp fun h => by simpa using h.le.trans)
  rw [hcut.1, mem_filter, decide_eq_true_eq]

theorem rangeScan_spec (hi : Counted t m Ls L S) {start last : K} (hr : start ≤ last) :
    ∃ items, t.rangeScan start last = some (.ok items) ∧ (items.map Prod.fst).Pairwise (· < ·) ∧
      ∀ e, e ∈ items ↔ e ∈ entries t.heap L ∧ start ≤ e.1 ∧ e.1 ≤ last := by
  by_cases hc : t.count = 0
  · have hnil : entries t.heap L = [] := length_eq_zero_iff.1 (hi.count.symm.trans hc)
    exact ⟨[], by simp [rangeScan, hc, not_lt.2 hr], by simp, by simp [hnil]⟩
  · have hs := hi.toShape
    have hsort := hs.sorted_entries
    have hfuel : L.length ≤ t.fresh := length_le_of_nodup (nodup_append.1 hs.nodup).1
      fun q hq => hs.bound q (mem_append_left _ hq)
    obtain ⟨A, p, B, SA, SB, rfl, rfl, hA, hB, hX, hY, hf⟩ := hs.findLeaf start
    obtain ⟨hlt, hgt⟩ := Shape.ne_of_beside hA hB hX hY
    obtain ⟨k1, k2, hk, hk1, hk2⟩ := exists_lower_cut start (sorted_keys hA hs.leaves.sorted)
    have hvals : ∀ q ∈ p :: B, (t.heap q).values.length = (t.heap q).keys.length := fun q hq =>
      (hs.leaves.leaf q (mem_append_right A hq)).values
    have hidx : lowerBound (t.heap p).keys start = k1.length := by
      rw [hk, lowerBound_append hk1 hk2]
    have hB' : B.length < t.fresh := by
      rw [length_append, length_cons] at hfuel
      omega
    have hscan := scanLeaves_spec last (linked_append.1 hs.leaves.linked).2 hvals hB' k1.length
    -- the scan starts behind the entries `X` and reads the entries `R`
    obtain ⟨v1, v2, hv, hv1, hv2⟩ : ∃ v1 v2, (t.heap p).values = v1 ++ v2 ∧
        v1.length = k1.length ∧ v2.length = k2.length :=
      exists_halves (by rw [hvals p (by simp), hk, length_append])
    have hzip : (t.heap p).keys.zip (t.heap p).values = k1.zip v1 ++ k2.zip v2 := by
      rw [hk, hv, zip_append hv1.symm]
    have hdrop : (k1.zip v1 ++ k2.zip v2).drop k1.length = k2.zip v2 := by
      rw [drop_append, length_zip, hv1]
      simp
    have hent : entries t.heap (A ++ p :: B) =
        (entries t.heap A ++ k1.zip v1) ++ (k2.zip v2 ++ entries t.heap B) := by
      rw [entries_split, hzip]
      simp [append_assoc]
    rw [hzip, hdrop] at hscan
    rw [hent, map_append] at hsort
    have hR := (pairwise_append.1 hsort).2.1
    refine ⟨(k2.zip v2 ++ entries t.heap B).takeWhile fun e => decide (e.1 ≤ last),
      by simp [rangeScan, hc, not_lt.2 hr, hf, hidx, hscan], ?_, fun e => ?_⟩
    · exact hR.sublist ((takeWhile_sublist _).map _)
    · rw [mem_takeWhile_of_sorted hR, hent, mem_append (s := entries t.heap A ++ k1.zip v1)]
      constructor
      · rintro ⟨h, hl⟩
        refine ⟨.inr h, ?_, hl⟩
        rcases mem_append.1 h with h | h
        · exact hk2 _ (of_mem_zip h).1
        · obtain ⟨q, hq, hx⟩ := mem_flatMap.1 h
          exact (hgt q hq _ (of_mem_zip hx).1).le
      · rintro ⟨h | h, hge, hl⟩
        · exfalso
          refine hge.not_gt ?_
          rcases mem_append.1 h with h | h
          · obtain ⟨q, hq, hx⟩ := mem_flatMap.1 h
            exact hlt q hq _ (of_mem_zip hx).1
          · exact hk1 _ (of_mem_zip h).1
        · exact ⟨h, hl⟩

end BPlusTree

end Read

/-- What an update does to a map. -/
def Op.apply (f : Finmap fun _ : K => V) : Op K V → Finmap fun _ : K => V
  | .insert key value => f.insert key value
  | .delete key => f.erase key

/-- The bindings after a sequence of updates. -/
def bindings (ops : List (Op K V)) : Finmap fun _ : K => V := ops.foldl Op.apply ∅

/-- The tree is well formed, with at most `2 * m` keys in a node, and its entries are the bindings of
the map. -/
def Represents (m : Nat) (t : BPlusTree K V) (f : Finmap fun _ : K => V) : Prop :=
  ∃ Ls L S, Counted t m Ls L S ∧ ∀ k v, (k, v) ∈ entries t.heap L ↔ f.lookup k = some v

theorem notMem_of_sorted {E1 E2 : List (K × V)} {key : K} {w : V}
    (hs : ((E1 ++ (key, w) :: E2).map Prod.fst).Pairwise (· < ·)) (v : V) :
    (key, v) ∉ E1 ∧ (key, v) ∉ E2 := by
  rw [map_append] at hs
  obtain ⟨-, h2, h1⟩ := pairwise_append.1 hs
  constructor
  · intro h
    exact lt_irrefl key (h1 key (mem_map.2 ⟨_, h, rfl⟩) key (mem_cons_self ..))
  · intro h
    exact lt_irrefl key ((pairwise_cons.1 h2).1 key (mem_map.2 ⟨_, h, rfl⟩))

theorem Put.lookup {key : K} {value : V} {E E' : List (K × V)} {f : Finmap fun _ : K => V}
    (hp : Put key value E E') (hs : (E'.map Prod.fst).Pairwise (· < ·))
    (hf : ∀ k v, (k, v) ∈ E ↔ f.lookup k = some v) (k : K) (v : V) :
    (k, v) ∈ E' ↔ (f.insert key value).lookup k = some v := by
  obtain ⟨E1, E2, hE, rfl⟩ := hp
  by_cases hk : k = key
  · subst hk
    obtain ⟨h1, h2⟩ := notMem_of_sorted hs v
    rw [lookup_insert, some_inj, mem_append, mem_cons, Prod.mk.injEq]
    constructor
    · rintro (h | ⟨-, rfl⟩ | h)
      · exact absurd h h1
      · rfl
      · exact absurd h h2
    · rintro rfl
      exact .inr (.inl ⟨rfl, rfl⟩)
  · rw [lookup_insert_of_ne _ hk, ← hf]
    rcases hE with rfl | ⟨w, rfl⟩ <;> simp [hk]

theorem Taken.lookup {key : K} {E E' : List (K × V)} {f : Finmap fun _ : K => V}
    (ht : Taken key E E') (hs : (E.map Prod.fst).Pairwise (· < ·))
    (hf : ∀ k v, (k, v) ∈ E ↔ f.lookup k = some v) (k : K) (v : V) :
    (k, v) ∈ E' ↔ (f.erase key).lookup k = some v := by
  obtain ⟨E1, w, E2, rfl, rfl⟩ := ht
  by_cases hk : k = key
  · subst hk
    obtain ⟨h1, h2⟩ := notMem_of_sorted hs v
    simp [h1, h2]
  · rw [lookup_erase_ne hk, ← hf]
    simp [hk]

theorem represents_new (maxKeys : Int) :
    ∃ m, Represents m (newBPlusTreeWithConfig maxKeys : BPlusTree K V) ∅ := by
  obtain ⟨m, hm, hmax⟩ : ∃ m, 1 ≤ m ∧
      (newBPlusTreeWithConfig maxKeys : BPlusTree K V).maxKeys = 2 * m := by
    refine ⟨(newBPlusTreeWithConfig maxKeys : BPlusTree K V).maxKeys / 2, ?_, ?_⟩
    all_goals
      simp only [newBPlusTreeWithConfig]
      split_ifs <;> omega
  refine ⟨m, [], [0], [], ?_, ?_⟩
  · exact
      { half := hm
        maxKeys := hmax
        upper := ⟨rfl, rfl, rfl⟩
        leaves :=
          { leaf := fun p _ => ⟨rfl, rfl, rfl, Nat.zero_le _, Nat.zero_le _⟩
            linked := ⟨rfl, rfl, trivial⟩
            sorted := List.Pairwise.nil }
        nodup := by simp
        bound := by simp [newBPlusTreeWithConfig]
        count := rfl }
  · simp [newBPlusTreeWithConfig, entries]

section Represents

variable {m : Nat} {t : BPlusTree K V} {f : Finmap fun _ : K => V} (hr : Represents m t f)
include hr

theorem Represents.update (op : Op K V) :
    ∃ t', t.update op = some t' ∧ Represents m t' (op.apply f) := by
  obtain ⟨Ls, L, S, hi, hf⟩ := hr
  cases op with
  | insert key value =>
    obtain ⟨t', Ls', L', S', h1, h2, hput⟩ := insert_spec hi key value
    exact ⟨t', h1, Ls', L', S', h2, hput.lookup h2.sorted_entries hf⟩
  | delete key =>
    rcases delete_spec hi key with ⟨t', Ls', L', S', h1, h2, htake⟩ | ⟨h1, hnot⟩
    · refine ⟨t', ?_, Ls', L', S', h2, htake.lookup hi.sorted_entries hf⟩
      show (t.delete key).map Prod.fst = some t'
      rw [h1]
      rfl
    · refine ⟨t, ?_, Ls, L, S, hi, fun k v => ?_⟩
      · show (t.delete key).map Prod.fst = some t
        rw [h1]
        rfl
      · show _ ↔ (f.erase key).lookup k = some v
        by_cases hk : k = key
        · subst hk
          rw [lookup_erase]
          constructor
          · intro h
            exact absurd (mem_map.2 ⟨_, h, rfl⟩) hnot
          · intro h
            cases h
        · rw [lookup_erase_ne hk, hf]

theorem Represents.updates (ops : List (Op K V)) :
    ∃ t', t.updates ops = some t' ∧ Represents m t' (ops.foldl Op.apply f) := by
  induction ops generalizing t f with
  | nil => exact ⟨t, rfl, hr⟩
  | cons op ops ih =>
    obtain ⟨t1, h1, hr1⟩ := hr.update op
    obtain ⟨t', h', hr'⟩ := ih hr1
    refine ⟨t', ?_, hr'⟩
    show (t.update op).bind _ = some t'
    rw [h1]
    exact h'

theorem Represents.count : t.count = f.keys.card := by
  obtain ⟨Ls, L, S, hi, hf⟩ := hr
  have hnd : ((entries t.heap L).map Prod.fst).Nodup := hi.sorted_entries.imp fun h => h.ne
  have hkeys : ((entries t.heap L).map Prod.fst).toFinset = f.keys := by
    ext k
    rw [List.mem_toFinset, Finmap.mem_keys, Finmap.mem_iff]
    constructor
    · intro h
      obtain ⟨⟨k, v⟩, he, rfl⟩ := mem_map.1 h
      exact ⟨v, (hf k v).1 he⟩
    · rintro ⟨v, hv⟩
      exact mem_map.2 ⟨(k, v), (hf k v).2 hv, rfl⟩
  rw [hi.count, ← hkeys, toFinset_card_of_nodup hnd, length_map]

theorem Represents.search (key : K) : t.search key = some (f.lookup key) := by
  obtain ⟨Ls, L, S, hi, hf⟩ := hr
  obtain ⟨r, hs, hv⟩ := search_spec hi key
  rw [hs, some_inj]
  ext v
  rw [hv, hf]

theorem Represents.delete (key : K) :
    ∃ t' found, t.delete key = some (t', found) ∧ (found = true ↔ key ∈ f) := by
  obtain ⟨Ls, L, S, hi, hf⟩ := hr
  rcases delete_spec hi key with ⟨t', Ls', L', S', h1, -, E1, w, E2, hE, -⟩ | ⟨h1, hnot⟩
  · refine ⟨t', true, h1, iff_of_true rfl ?_⟩
    exact mem_iff.2 ⟨w, (hf key w).1 (by simp [hE])⟩
  · refine ⟨t, false, h1, iff_of_false Bool.false_ne_true ?_⟩
    intro h
    obtain ⟨v, hv⟩ := mem_iff.1 h
    exact hnot (mem_map.2 ⟨_, (hf key v).2 hv, rfl⟩)

theorem Represents.rangeScan {start last : K} (hle : start ≤ last) :
    ∃ items, t.rangeScan start last = some (.ok items) ∧ (items.map Prod.fst).Pairwise (· < ·) ∧
      ∀ k v, (k, v) ∈ items ↔ start ≤ k ∧ k ≤ last ∧ f.lookup k = some v := by
  obtain ⟨Ls, L, S, hi, hf⟩ := hr
  obtain ⟨items, h1, h2, h3⟩ := rangeScan_spec hi hle
  refine ⟨items, h1, h2, fun k v => ?_⟩
  rw [h3, hf]
  constructor
  · rintro ⟨h, hge, hle⟩
    exact ⟨hge, hle, h⟩
  · rintro ⟨hge, hle, h⟩
    exact ⟨h, hge, hle⟩

end Represents

/-- Every sequence of updates of the empty tree goes through, and the tree then answers as the map.
-/
theorem tree_refines_map (maxKeys : Int) (ops : List (Op K V)) :
    ∃ t, (newBPlusTreeWithConfig maxKeys).updates ops = some t ∧
      (∀ k, t.search k = some ((bindings ops).lookup k)) ∧
      (∀ k, ∃ t' found, t.delete k = some (t', found) ∧ (found = true ↔ k ∈ bindings ops)) ∧
      t.count = (bindings ops).keys.card ∧
      ∀ start last, start ≤ last → ∃ items, t.rangeScan start last = some (.ok items) ∧
        (items.map Prod.fst).Pairwise (· < ·) ∧
        ∀ k v, (k, v) ∈ items ↔ start ≤ k ∧ k ≤ last ∧ (bindings ops).lookup k = some v := by
  obtain ⟨m, hnew⟩ := represents_new (K := K) (V := V) maxKeys
  obtain ⟨t, ht, hr⟩ := hnew.updates ops
  refine ⟨t, ht, hr.search, hr.delete, hr.count, ?_⟩
  intro start last hle
  exact hr.rangeScan hle

end Solocoder.BPlus
