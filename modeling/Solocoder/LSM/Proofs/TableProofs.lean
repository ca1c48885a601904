import Mathlib.Data.List.Induction
import Mathlib.Data.List.Pairwise
import Solocoder.LSM.Store

/-!
# Entries, tables and the search in a level

What is in a map of entries after an insertion, which entries `collect` keeps, how a compaction cuts
its entries into files, and which table the search of a level finds.
-/

namespace Solocoder.LSM

open List Option SSTable

variable {Str : Type} [GoString Str]

section Entries

variable {es : List (Entry Str)} {e x y : Entry Str}

theorem Keyed.unique (h : Keyed es) (hx : x ∈ es) (hy : y ∈ es) (hk : x.key = y.key) : x = y :=
  inj_on_of_nodup_map (Pairwise.imp ne_of_lt h) hx hy hk

theorem lookup_eq_some (h : Keyed es) {key : Str} :
    lookup es key = some e ↔ e ∈ es ∧ e.key = key := by
  constructor
  · intro hf
    exact ⟨mem_of_find?_eq_some hf, by simpa using find?_some hf⟩
  · rintro ⟨he, hk⟩
    have hsome : (lookup es key).isSome := by
      rw [lookup, find?_isSome]
      exact ⟨e, he, by simpa using hk⟩
    obtain ⟨x, hx⟩ := isSome_iff_exists.1 hsome
    have hxk : x.key = key := by simpa using find?_some hx
    rw [hx, h.unique (mem_of_find?_eq_some hx) he (hxk.trans hk.symm)]

theorem lookup_eq_none {key : Str} : lookup es key = none ↔ ∀ e ∈ es, e.key ≠ key := by
  simp [lookup]

variable {choose : Entry Str → Entry Str → Entry Str}

theorem mem_upsert (h : Keyed es) : y ∈ upsert choose e es ↔
      (y ∈ es ∧ y.key ≠ e.key) ∨ y = (lookup es e.key).elim e fun x => choose x e := by
  induction es with
  | nil => simp [upsert, lookup]
  | cons x es ih =>
    obtain ⟨hx, hes⟩ := keyed_cons.1 h
    rw [upsert]
    split_ifs with hlt heq
    · have hlook : lookup (x :: es) e.key = lookup es e.key := by
        simp [lookup, hlt.ne]
      rw [mem_cons, ih hes, hlook, mem_cons]
      constructor
      · rintro (rfl | ⟨hy, hk⟩ | hy)
        · exact .inl ⟨.inl rfl, hlt.ne⟩
        · exact .inl ⟨.inr hy, hk⟩
        · exact .inr hy
      · rintro (⟨rfl | hy, hk⟩ | hy)
        · exact .inl rfl
        · exact .inr (.inl ⟨hy, hk⟩)
        · exact .inr (.inr hy)
    · have hlook : lookup (x :: es) e.key = some x := by simp [lookup, heq]
      rw [mem_cons, hlook, mem_cons]
      constructor
      · rintro (hy | hy)
        · exact .inr hy
        · exact .inl ⟨.inr hy, fun hk => (hx y hy).ne (heq.trans hk.symm)⟩
      · rintro (⟨rfl | hy, hk⟩ | hy)
        · exact absurd heq hk
        · exact .inr hy
        · exact .inl hy
    · have hex : e.key < x.key := lt_of_le_of_ne (not_lt.1 hlt) fun h => heq h.symm
      have hgt : ∀ z ∈ x :: es, e.key < z.key :=
        forall_mem_cons.2 ⟨hex, fun z hz => hex.trans (hx z hz)⟩
      rw [lookup_eq_none.2 fun z hz => (hgt z hz).ne', mem_cons]
      constructor
      · rintro (hy | hy)
        · exact .inr hy
        · exact .inl ⟨hy, (hgt y hy).ne'⟩
      · rintro (⟨hy, -⟩ | hy)
        · exact .inr hy
        · exact .inl hy

theorem collect_concat (es : List (Entry Str)) (e : Entry Str) :
    collect (es ++ [e]) = upsert newer e (collect es) := by
  simp [collect, foldl_append]

omit [GoString Str] in
theorem newer_cases (x e : Entry Str) :
    (newer x e = e ∧ x.timestamp < e.timestamp) ∨ (newer x e = x ∧ e.timestamp ≤ x.timestamp) := by
  unfold newer
  split_ifs with h
  · exact .inl ⟨rfl, h⟩
  · exact .inr ⟨rfl, not_lt.1 h⟩

theorem key_upserted (h : Keyed es) :
    ((lookup es e.key).elim e fun x => newer x e).key = e.key := by
  cases hl : lookup es e.key with
  | none => rfl
  | some x => exact key_newer ((lookup_eq_some h).1 hl).2

theorem exists_mem_collect (hx : x ∈ es) : ∃ e ∈ collect es, e.key = x.key := by
  induction es using reverseRecOn generalizing x with
  | nil => cases hx
  | append_singleton es z ih =>
    have hk := keyed_collect es
    rw [collect_concat]
    have hnew : ∃ e ∈ upsert newer z (collect es), e.key = z.key :=
      ⟨_, (mem_upsert hk).2 (.inr rfl), key_upserted hk⟩
    rcases mem_append.1 hx with hx | hx
    · obtain ⟨e, he, hek⟩ := ih hx
      by_cases hez : e.key = z.key
      · rwa [← hek, hez]
      · exact ⟨e, (mem_upsert hk).2 (.inl ⟨he, hez⟩), hek⟩
    · rwa [mem_singleton.1 hx]

theorem mem_collect (he : e ∈ collect es) :
    e ∈ es ∧ ∀ x ∈ es, x.key = e.key → x.timestamp ≤ e.timestamp := by
  induction es using reverseRecOn generalizing e with
  | nil => cases he
  | append_singleton es z ih =>
    have hk := keyed_collect es
    rw [collect_concat, mem_upsert hk] at he
    have hself : z ∈ es ++ [z] := mem_append_right _ (mem_singleton_self z)
    rcases he with ⟨he, hne⟩ | he
    · obtain ⟨h1, h2⟩ := ih he
      refine ⟨mem_append_left _ h1, forall_mem_append.2 ⟨h2, forall_mem_singleton.2 ?_⟩⟩
      exact fun hzk => absurd hzk.symm hne
    · cases hl : lookup (collect es) z.key with
      | none =>
        rw [hl] at he
        subst he
        refine ⟨hself, forall_mem_append.2 ⟨fun x hx hxk => ?_, by simp⟩⟩
        obtain ⟨w, hw, hwk⟩ := exists_mem_collect hx
        exact absurd (hwk.trans hxk) (lookup_eq_none.1 hl w hw)
      | some w =>
        rw [hl, elim_some] at he
        obtain ⟨hw, hwk⟩ := (lookup_eq_some hk).1 hl
        obtain ⟨h1, h2⟩ := ih hw
        rcases newer_cases w z with ⟨hn, hlt⟩ | ⟨hn, hle⟩
        · rw [hn] at he
          subst he
          refine ⟨hself, forall_mem_append.2 ⟨fun x hx hxk => ?_, by simp⟩⟩
          exact (h2 x hx (hxk.trans hwk.symm)).trans hlt.le
        · rw [hn] at he
          subst he
          refine ⟨mem_append_left _ h1, forall_mem_append.2 ⟨h2, forall_mem_singleton.2 ?_⟩⟩
          exact fun _ => hle

theorem upsert_of_lt (h : ∀ x ∈ es, x.key < e.key) : upsert choose e es = es ++ [e] := by
  induction es with
  | nil => rfl
  | cons x es ih =>
    rw [upsert, if_pos (h x (mem_cons_self ..)), ih fun y hy => h y (mem_cons_of_mem x hy)]
    rfl

theorem collect_of_keyed (h : Keyed es) : collect es = es := by
  induction es using reverseRecOn with
  | nil => rfl
  | append_singleton es z ih =>
    rw [Keyed, map_append, pairwise_append] at h
    obtain ⟨hes, -, hlt⟩ := h
    rw [collect_concat, ih hes]
    exact upsert_of_lt fun x hx => hlt _ (mem_map_of_mem hx) _ (mem_map_of_mem (by simp))

theorem Keyed.sublist {es' : List (Entry Str)} (h : Keyed es) (hs : es'.Sublist es) : Keyed es' :=
  Pairwise.sublist (hs.map _) h

end Entries

namespace SSTable

variable {t : SSTable Str} {e : Entry Str}

theorem minKey_le (he : e ∈ t.entries) : t.minKey ≤ e.key := by
  obtain ⟨l, n, es, hne, hk⟩ := t
  cases es with
  | nil => exact absurd rfl hne
  | cons x es =>
    rcases mem_cons.1 he with rfl | he'
    · exact le_rfl
    · exact ((keyed_cons.1 hk).1 e he').le

theorem le_maxKey (he : e ∈ t.entries) : e.key ≤ t.maxKey := by
  obtain ⟨l, n, es, hne, hk⟩ := t
  have hle : (es.map Entry.key).Pairwise (· ≤ ·) := Pairwise.imp le_of_lt hk
  have hlast := hle.rel_getLast (mem_map_of_mem he)
  rwa [getLast_map] at hlast

theorem exists_minKey (t : SSTable Str) : ∃ e ∈ t.entries, e.key = t.minKey :=
  ⟨_, head_mem t.nonempty, rfl⟩

theorem exists_maxKey (t : SSTable Str) : ∃ e ∈ t.entries, e.key = t.maxKey :=
  ⟨_, getLast_mem t.nonempty, rfl⟩

theorem minKey_le_maxKey (t : SSTable Str) : t.minKey ≤ t.maxKey := by
  obtain ⟨e, he, hk⟩ := t.exists_minKey
  exact hk ▸ le_maxKey he

theorem get_eq_some {key : Str} : t.get key = some e ↔ e ∈ t.entries ∧ e.key = key := by
  unfold get
  cases hl : lookup t.entries key with
  | none =>
    constructor
    · intro h
      cases h
    · rintro ⟨he, hk⟩
      exact absurd hk (lookup_eq_none.1 hl e he)
  | some x =>
    obtain ⟨hx, hxk⟩ := (lookup_eq_some t.keyed).1 hl
    have hin : ¬ (key < t.minKey ∨ t.maxKey < key) := by
      rw [not_or, not_lt, not_lt, ← hxk]
      exact ⟨minKey_le hx, le_maxKey hx⟩
    show (if key < t.minKey ∨ t.maxKey < key then none else some x) = some e ↔ _
    rw [if_neg hin, some_inj]
    constructor
    · rintro rfl
      exact ⟨hx, hxk⟩
    · rintro ⟨he, hk⟩
      exact t.keyed.unique hx he (hxk.trans hk.symm)

theorem overlapsWith_iff {lo hi : Str} :
    t.overlapsWith lo hi = true ↔ lo ≤ t.maxKey ∧ t.minKey ≤ hi := by
  simp [overlapsWith]

theorem overlapsWith_of_mem {lo hi : Str} (he : e ∈ t.entries) (hlo : lo ≤ e.key) (hhi : e.key ≤ hi) :
    t.overlapsWith lo hi = true :=
  overlapsWith_iff.2 ⟨hlo.trans (le_maxKey he), (minKey_le he).trans hhi⟩

theorem newSSTable_of_keyed (level seqNum : Nat) {es : List (Entry Str)} (hk : Keyed es)
    (hne : es ≠ []) :
    ∃ t : SSTable Str, newSSTable level seqNum es = some t ∧ t.level = level ∧ t.seqNum = seqNum ∧
      t.entries = es := by
  have hc : collect es ≠ [] := by rwa [collect_of_keyed hk]
  refine ⟨_, dif_pos hc, rfl, rfl, ?_⟩
  exact collect_of_keyed hk

end SSTable

namespace DB

theorem flatten_cut (target : Int) (cur : List (Entry Str)) (size : Int) (es : List (Entry Str)) :
    (cut target cur size es).flatten = cur ++ es := by
  induction es generalizing cur size with
  | nil =>
    rw [cut]
    split_ifs with h
    · rw [h]
      rfl
    · simp
  | cons e es ih =>
    rw [cut]
    split_ifs with h
    · rw [flatten_cons, ih]
      rfl
    · rw [ih, append_assoc]
      rfl

theorem ne_nil_of_mem_cut {target : Int} {cur : List (Entry Str)} {size : Int}
    {es c : List (Entry Str)} (hc : c ∈ cut target cur size es) : c ≠ [] := by
  induction es generalizing cur size with
  | nil =>
    rw [cut] at hc
    split_ifs at hc with h
    · cases hc
    · rwa [mem_singleton.1 hc]
  | cons e es ih =>
    rw [cut] at hc
    split_ifs at hc with h
    · rcases mem_cons.1 hc with rfl | hc
      · exact h.2
      · exact ih hc
    · exact ih hc

theorem createTables_spec (level seqNum : Nat) {cs : List (List (Entry Str))}
    (hcs : ∀ c ∈ cs, Keyed c ∧ c ≠ []) :
    ∃ ts, createTables level seqNum cs = some ts ∧ ts.map entries = cs ∧
      (∀ t ∈ ts, t.level = level) ∧ ts.map SSTable.seqNum = range' seqNum cs.length := by
  induction cs generalizing seqNum with
  | nil => exact ⟨[], rfl, rfl, by simp, rfl⟩
  | cons c cs ih =>
    obtain ⟨hk, hne⟩ := hcs c (mem_cons_self ..)
    obtain ⟨t, ht, h1, h2, h3⟩ := newSSTable_of_keyed level seqNum hk hne
    obtain ⟨ts, hts, h4, h5, h6⟩ := ih (seqNum + 1) fun c' hc' => hcs c' (mem_cons_of_mem c hc')
    refine ⟨t :: ts, ?_, ?_, forall_mem_cons.2 ⟨h1, h5⟩, ?_⟩
    · simp [createTables, ht, hts]
    · rw [map_cons, h3, h4]
    · rw [map_cons, h2, h6]
      rfl

end DB

variable (tables : List (SSTable Str))

/-- No two key ranges meet. -/
def Disjoint : Prop :=
  tables.Pairwise fun a b => a.maxKey < b.minKey ∨ b.maxKey < a.minKey

/-- The tables stand by their least keys. -/
def Ordered : Prop := tables.Pairwise fun a b => a.minKey ≤ b.minKey

namespace Level

variable {tables : List (SSTable Str)}

theorem apart (ho : Ordered tables) (hd : Disjoint tables) :
    tables.Pairwise fun a b => a.maxKey < b.minKey := by
  refine (Pairwise.and ho hd).imp fun {a b} h => ?_
  rcases h.2 with hlt | hlt
  · exact hlt
  · exact absurd (h.1.trans (b.minKey_le_maxKey)) hlt.not_ge

theorem ruled_out {key : Str} {low high : Int} (hempty : high < low)
    (hl : ∀ (i : Nat) t, tables[i]? = some t → (i : Int) < low → t.maxKey < key)
    (hh : ∀ (i : Nat) t, tables[i]? = some t → high < (i : Int) → key < t.minKey) :
    ∀ t ∈ tables, key < t.minKey ∨ t.maxKey < key := by
  intro t ht
  obtain ⟨i, hi⟩ := getElem?_of_mem ht
  rcases lt_or_ge (i : Int) low with h | h
  · exact .inr (hl i t hi h)
  · exact .inl (hh i t hi (hempty.trans_le h))

theorem lt_of_apart (ha : tables.Pairwise fun a b => a.maxKey < b.minKey) {i j : Nat}
    {a b : SSTable Str} (hi : tables[i]? = some a) (hj : tables[j]? = some b) (hij : i < j) :
    a.maxKey < b.minKey := by
  obtain ⟨h1, rfl⟩ := List.getElem?_eq_some_iff.1 hi
  obtain ⟨h2, rfl⟩ := List.getElem?_eq_some_iff.1 hj
  exact pairwise_iff_getElem.1 ha i j h1 h2 hij

theorem findTableLoop_spec (ha : tables.Pairwise fun a b => a.maxKey < b.minKey) (key : Str)
    (fuel : Nat) {low high : Int} (hlow : 0 ≤ low) (hhigh : high < tables.length)
    (hfuel : high - low + 1 < fuel)
    (hl : ∀ (i : Nat) t, tables[i]? = some t → (i : Int) < low → t.maxKey < key)
    (hh : ∀ (i : Nat) t, tables[i]? = some t → high < (i : Int) → key < t.minKey) :
    (∃ i t, findTableLoop tables key fuel low high = some i ∧ tables[i]? = some t ∧
      t.minKey ≤ key ∧ key ≤ t.maxKey) ∨
    (findTableLoop tables key fuel low high = none ∧
      ∀ t ∈ tables, key < t.minKey ∨ t.maxKey < key) := by
  induction fuel generalizing low high with
  | zero => exact .inr ⟨rfl, ruled_out (by omega) hl hh⟩
  | succ fuel ih =>
    rw [findTableLoop]
    by_cases hle : low ≤ high
    · have hmid : ((low + high) / 2).toNat < tables.length := by omega
      obtain ⟨sst, hsst⟩ : ∃ sst, tables[((low + high) / 2).toNat]? = some sst :=
        ⟨_, getElem?_eq_getElem hmid⟩
      simp only [hsst]
      split_ifs with hmin hmax
      · refine ih hlow (by omega) (by omega) hl fun i t hi hlt => ?_
        rcases eq_or_ne i ((low + high) / 2).toNat with rfl | hne
        · rw [hsst, some_inj] at hi
          exact hi ▸ hmin
        · exact (hmin.trans_le sst.minKey_le_maxKey).trans (lt_of_apart ha hsst hi (by omega))
      · refine ih (by omega) hhigh (by omega) (fun i t hi hlt => ?_) hh
        rcases eq_or_ne i ((low + high) / 2).toNat with rfl | hne
        · rw [hsst, some_inj] at hi
          exact hi ▸ hmax
        · have hbelow : t.maxKey < sst.minKey := lt_of_apart ha hi hsst (by omega)
          exact hbelow.trans_le (sst.minKey_le_maxKey.trans hmax.le)
      · exact .inl ⟨_, sst, rfl, hsst, not_lt.1 hmin, not_lt.1 hmax⟩
    · rw [if_neg hle]
      exact .inr ⟨rfl, ruled_out (not_le.1 hle) hl hh⟩

/-- On a level of disjoint tables, `Get` finds the entry with the key, whichever table it is in. -/
theorem get_eq_some {level : Nat} (hlevel : level ≠ 0) (ho : Ordered tables) (hd : Disjoint tables)
    {key : Str} {e : Entry Str} :
    get level tables key = some e ↔ ∃ t ∈ tables, e ∈ t.entries ∧ e.key = key := by
  have ha := apart ho hd
  have hloop := findTableLoop_spec ha key (tables.length + 1) (le_refl (0 : Int))
    (show (tables.length : Int) - 1 < tables.length by omega) (by omega)
    (fun i t _ hi => absurd hi (by omega))
    (fun i t hi hlt => absurd (List.getElem?_eq_some_iff.1 hi).1 (by omega))
  rw [get, if_neg hlevel, findTable]
  rcases hloop with ⟨i, t, hf, hi, hmin, hmax⟩ | ⟨hf, hout⟩
  · have hbind : ((some i).bind fun idx => tables[idx]?) = some t := hi
    rw [hf, hbind]
    show (if t.minKey ≤ key ∧ key ≤ t.maxKey then t.get key else none) = some e ↔ _
    rw [if_pos ⟨hmin, hmax⟩, SSTable.get_eq_some]
    constructor
    · intro h
      exact ⟨t, mem_of_getElem? hi, h⟩
    · rintro ⟨t', ht', he, hk⟩
      have htt : t' = t := by
        obtain ⟨j, hj⟩ := getElem?_of_mem ht'
        have h1 : t'.minKey ≤ key := hk ▸ minKey_le he
        have h2 : key ≤ t'.maxKey := hk ▸ le_maxKey he
        rcases lt_trichotomy i j with hij | rfl | hij
        · exact absurd ((lt_of_apart ha hi hj hij).trans_le h1) hmax.not_gt
        · rw [hi, some_inj] at hj
          exact hj.symm
        · exact absurd ((lt_of_apart ha hj hi hij).trans_le hmin) h2.not_gt
      exact htt ▸ ⟨he, hk⟩
  · rw [hf]
    constructor
    · intro h
      cases h
    · rintro ⟨t, ht, he, hk⟩
      rcases hout t ht with h | h
      · exact absurd (hk ▸ minKey_le he) h.not_ge
      · exact absurd (hk ▸ le_maxKey he) h.not_ge

end Level

end Solocoder.LSM
