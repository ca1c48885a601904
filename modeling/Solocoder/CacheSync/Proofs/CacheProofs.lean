import Mathlib.Data.List.Induction
import Solocoder.CacheSync.Cache
import Solocoder.Lib.Runs

/-!
# Convergence of the replicated cache

Two nodes that set a key at the same time give it one version, and a reconciliation repairs nothing.
If every `Set` happens where no other node is ahead, equal versions have equal values.
-/

namespace Solocoder.CacheSync.Cluster

open Lib List Function Option

variable {N K V : Type} [DecidableEq N] [DecidableEq K] {c c' : Cluster N K V} {n : N} {k : K}
  {msg : Message N K V} {v : Nat} {a : V} {visits : List (N × K)}

/-- A `Set` happens where the version of the key is the highest, and has a successor. -/
def Latest (c : Cluster N K V) : Event N K V → Prop
  | .set n key _ _ => ∀ m, ∀ e ∈ c.cache m key,
      ∃ e' ∈ c.cache n key, e.version ≤ e'.version ∧ e'.version + 1 < 2 ^ 64
  | _ => True

/-- The cluster has this value as this version of the key, in a cache or on the way. -/
inductive Copy (c : Cluster N K V) (k : K) : Nat → V → Prop
  | cache {n : N} {e : CacheEntry N V} : e ∈ c.cache n k → Copy c k e.version e.value
  | inbox {n : N} {m : Message N K V} : m ∈ c.inbox n → m.key = k → Copy c k m.version m.value
  | call {p : Message N K V × List N} : p ∈ c.calls → p.1.key = k → Copy c k p.1.version p.1.value

/-- Equal versions of a key have equal values, and none is above those of the caches. -/
structure Coherent (c : Cluster N K V) : Prop where
  agree : ∀ {k v a b}, c.Copy k v a → c.Copy k v b → a = b
  bound : ∀ {k v a}, c.Copy k v a → ∃ n, ∃ e ∈ c.cache n k, v ≤ e.version

omit [DecidableEq N] [DecidableEq K] in
theorem Coherent.of_copies (h : c.Coherent) (hcopy : ∀ {k v a}, c'.Copy k v a → c.Copy k v a)
    (hmono : ∀ n k, ∀ e ∈ c.cache n k, ∃ e' ∈ c'.cache n k, e.version ≤ e'.version) :
    c'.Coherent := by
  refine ⟨fun ha hb => h.agree (hcopy ha) (hcopy hb), fun ha => ?_⟩
  obtain ⟨n, e, hmem, hle⟩ := h.bound (hcopy ha)
  obtain ⟨e', hmem', hle'⟩ := hmono n _ e hmem
  exact ⟨n, e', hmem', hle.trans hle'⟩

theorem update_cache (cache : N → Cache N K V) (n m : N) (key k : K)
    (entry : Option (CacheEntry N V)) :
    update cache n (update (cache n) key entry) m k =
      if m = n ∧ k = key then entry else cache m k := by
  rcases eq_or_ne m n with rfl | hm
  · simp [update_apply]
  · simp [hm]

theorem handle_cache (c : Cluster N K V) (n m : N) (msg : Message N K V) (k : K) :
    (c.handle n msg).cache m k =
      if m = n ∧ k = msg.key ∧ (c.cache n msg.key).all (·.version < msg.version) then
        some ⟨msg.value, msg.version, msg.fromNodeID⟩
      else c.cache m k := by
  have hput := update_cache c.cache n m msg.key k (some ⟨msg.value, msg.version, msg.fromNodeID⟩)
  unfold handle Cache.handleUpdateNotify
  cases hc : c.cache n msg.key with
  | none => simpa using hput
  | some e =>
    by_cases hle : msg.version ≤ e.version
    · simp [hle, hle.not_gt]
    · simpa [hle, not_le.mp hle] using hput

@[simp]
theorem handle_inbox (c : Cluster N K V) (n : N) (msg : Message N K V) :
    (c.handle n msg).inbox = c.inbox := by
  unfold handle
  split <;> rfl

@[simp]
theorem handle_calls (c : Cluster N K V) (n : N) (msg : Message N K V) :
    (c.handle n msg).calls = c.calls := by
  unfold handle
  split <;> rfl

theorem Copy.of_handle (h : (c.handle n msg).Copy k v a) :
    c.Copy k v a ∨ k = msg.key ∧ v = msg.version ∧ a = msg.value := by
  cases h with
  | @cache m e hmem =>
    rw [handle_cache] at hmem
    split at hmem
    next hif =>
      cases hmem
      exact .inr ⟨hif.2.1, rfl, rfl⟩
    · exact .inl (.cache hmem)
  | inbox hmem hk => exact .inl (.inbox (by simpa using hmem) hk)
  | call hmem hk => exact .inl (.call (by simpa using hmem) hk)

theorem version_handle (c : Cluster N K V) (n : N) (msg : Message N K V) (m : N) (k : K) :
    ∀ e ∈ c.cache m k, ∃ e' ∈ (c.handle n msg).cache m k, e.version ≤ e'.version := by
  intro e hmem
  rw [handle_cache]
  split
  next hif =>
    obtain ⟨rfl, rfl, hall⟩ := hif
    rw [hmem, all_some, decide_eq_true_eq] at hall
    exact ⟨_, rfl, hall.le⟩
  · exact ⟨e, hmem, le_rfl⟩

theorem Coherent.repair (h : c.Coherent) (source n : N) (k : K) :
    (c.repair source n k).Coherent := by
  unfold Cluster.repair
  split
  next e he =>
    refine h.of_copies (fun hcopy => ?_) (version_handle c n _)
    rcases hcopy.of_handle with hold | ⟨rfl, rfl, rfl⟩
    · exact hold
    · exact .cache he
  · exact h

theorem Coherent.deliver (h : c.Coherent) (n : N) : (c.deliver n).Coherent := by
  unfold Cluster.deliver
  split
  next msg rest hinbox =>
    refine h.of_copies (fun hcopy => ?_)
      (version_handle { c with inbox := update c.inbox n rest } n msg)
    have hmsg : msg ∈ c.inbox n := by simp [hinbox]
    rcases hcopy.of_handle with hold | ⟨rfl, rfl, rfl⟩
    · cases hold with
      | cache hmem => exact .cache hmem
      | @inbox m msg' hmem hk =>
        rcases eq_or_ne m n with rfl | hne
        · exact .inbox (n := m) (by simp_all) hk
        · exact .inbox (n := m) (by simpa [hne] using hmem) hk
      | call hmem hk => exact .call hmem hk
    · exact .inbox hmsg rfl
  · exact h

omit [DecidableEq K] in
theorem Coherent.send (h : c.Coherent) (call : Nat) : (c.send call).Coherent := by
  unfold Cluster.send
  split
  next msg node rest hcall =>
    have hmem : (msg, node :: rest) ∈ c.calls := mem_of_getElem? hcall
    refine h.of_copies (fun hcopy => ?_) fun _ _ e he => ⟨e, he, le_rfl⟩
    cases hcopy with
    | cache he => exact .cache he
    | @inbox m msg' hmsg hk =>
      dsimp only at hmsg
      split at hmsg
      · rcases eq_or_ne m node with rfl | hne
        · rw [update_self, mem_append, mem_singleton] at hmsg
          rcases hmsg with hold | rfl
          · exact .inbox hold hk
          · exact .call hmem hk
        · rw [update_of_ne hne] at hmsg
          exact .inbox hmsg hk
      · exact .inbox hmsg hk
    | call hp hk =>
      rcases mem_or_eq_of_mem_set hp with hold | rfl
      · exact .call hold hk
      · exact .call (p := (msg, node :: rest)) hmem hk
  · exact h

theorem Coherent.set (h : c.Coherent) {targets : List N} (hlast : c.Latest (.set n k a targets)) :
    (c.set n k a targets).Coherent := by
  have hnew : ∀ m, ∀ e ∈ c.cache m k, e.version < c.newVersion n k := by
    intro m e hmem
    obtain ⟨e', hmem', hle, hlt⟩ := hlast m e hmem
    rw [newVersion, hmem']
    dsimp only
    omega
  have hcache : ∀ m k', (c.set n k a targets).cache m k' =
      if m = n ∧ k' = k then some ⟨a, c.newVersion n k, n⟩ else c.cache m k' :=
    fun m k' => update_cache c.cache n m k k' _
  have hcopy : ∀ {k' v b}, (c.set n k a targets).Copy k' v b →
      c.Copy k' v b ∨ k' = k ∧ v = c.newVersion n k ∧ b = a := by
    intro k' v b hb
    cases hb with
    | @cache m e hmem =>
      rw [hcache] at hmem
      split at hmem
      next hif =>
        cases hmem
        exact .inr ⟨hif.2, rfl, rfl⟩
      · exact .inl (.cache hmem)
    | inbox hmem hk => exact .inl (.inbox hmem hk)
    | call hmem hk =>
      rcases mem_cons.mp hmem with rfl | hold
      · exact .inr ⟨hk.symm, rfl, rfl⟩
      · exact .inl (.call hold hk)
  have hfresh : ∀ {b}, ¬ c.Copy k (c.newVersion n k) b := by
    intro b hb
    obtain ⟨m, e, hmem, hle⟩ := h.bound hb
    exact absurd (hnew m e hmem) hle.not_gt
  refine ⟨fun hb hb' => ?_, fun hb => ?_⟩
  · rcases hcopy hb with hold | ⟨hk, hv, ha⟩ <;> rcases hcopy hb' with hold' | ⟨hk', hv', ha'⟩
    · exact h.agree hold hold'
    · subst hk' hv'
      exact absurd hold hfresh
    · subst hk hv
      exact absurd hold' hfresh
    · exact ha.trans ha'.symm
  · rcases hcopy hb with hold | ⟨rfl, rfl, rfl⟩
    · obtain ⟨m, e, hmem, hle⟩ := h.bound hold
      refine ⟨m, ?_⟩
      rw [hcache]
      split
      next hif =>
        obtain ⟨rfl, rfl⟩ := hif
        exact ⟨_, rfl, hle.trans (hnew m e hmem).le⟩
      · exact ⟨e, hmem, hle⟩
    · exact ⟨n, _, by rw [hcache, if_pos ⟨rfl, rfl⟩]; rfl, le_rfl⟩

omit [DecidableEq N] [DecidableEq K] in
theorem coherent_init (messageBuffer : Nat) : (init messageBuffer : Cluster N K V).Coherent := by
  have hcopy : ∀ k v a, ¬ (init messageBuffer : Cluster N K V).Copy k v a := by
    rintro k v a (hmem | hmem | hmem) <;> cases hmem
  exact ⟨fun ha => absurd ha (hcopy _ _ _), fun ha => absurd ha (hcopy _ _ _)⟩

theorem Coherent.step (h : c.Coherent) {e : Event N K V} (hlast : c.Latest e) :
    (c.step e).Coherent := by
  cases e with
  | set n key value targets => exact h.set hlast
  | send call => exact h.send call
  | deliver n => exact h.deliver n
  | repair source n key => exact h.repair source n key

def rank (c : Cluster N K V) (n : N) (k : K) : Nat := (c.cache n k).elim 0 (·.version + 1)

def top (merged : Option (Nat × N)) : Nat := merged.elim 0 (·.1 + 1)

omit [DecidableEq N] in
theorem merged_concat (c : Cluster N K V) (visits : List (N × K)) (p : N × K) (k : K) :
    c.merged (visits ++ [p]) k =
      if k = p.2 ∧ top (c.merged visits k) < c.rank p.1 k then some (c.rank p.1 k - 1, p.1)
      else c.merged visits k := by
  have hstep : c.merged (visits ++ [p]) = (c.cache p.1 p.2).elim (c.merged visits) fun entry =>
        if (c.merged visits p.2).all (·.1 < entry.version) then
          update (c.merged visits) p.2 (some (entry.version, p.1))
        else c.merged visits := by
    obtain ⟨n, key⟩ := p
    rw [merged, foldl_append]
    simp only [foldl_cons, foldl_nil]
    cases c.cache n key <;> rfl
  rw [hstep]
  rcases eq_or_ne k p.2 with rfl | hk
  · cases hc : c.cache p.1 p.2 with
    | none => simp [rank, hc]
    | some e =>
      cases hm : c.merged visits p.2 with
      | none => simp [rank, top, hc]
      | some q => by_cases hlt : q.1 < e.version <;> simp [rank, top, hc, hm, hlt]
  · cases c.cache p.1 p.2 with
    | none => simp [hk]
    | some e =>
      rw [elim_some]
      split <;> simp [hk]

omit [DecidableEq N] in
theorem rank_source {w : Nat} {source : N}
    (h : c.merged visits k = some (w, source)) : c.rank source k = w + 1 := by
  induction visits using reverseRecOn with
  | nil => cases h
  | append_singleton visits p ih =>
    rw [merged_concat] at h
    split at h
    · cases h
      omega
    · exact ih h

omit [DecidableEq N] in
theorem rank_le_top (hv : (n, k) ∈ visits) : c.rank n k ≤ top (c.merged visits k) := by
  induction visits using reverseRecOn with
  | nil => cases hv
  | append_singleton visits p ih =>
    rw [merged_concat]
    rcases mem_append.mp hv with hold | hnew
    · have hle := ih hold
      split
      · simp only [top, elim_some]
        omega
      · exact hle
    · cases mem_singleton.mp hnew
      split
      · simp only [top, elim_some]
        omega
      · simp_all

theorem rank_repair (c : Cluster N K V) (source n m : N) (key k : K) :
    (c.repair source n key).rank m k =
      if m = n ∧ k = key then max (c.rank n key) (c.rank source key) else c.rank m k := by
  unfold repair
  cases hs : c.cache source key with
  | none =>
    simp only [rank, hs]
    split <;> simp_all
  | some e =>
    simp only [rank, handle_cache]
    cases hn : c.cache n key <;> grind [Option.all, Option.elim]

theorem rank_repairBehind (hle : ∀ n k, c.rank n k ≤ top (c.merged visits k)) {s : Cluster N K V}
    (hs : ∀ n k, s.rank n k = c.rank n k ∨ s.rank n k = top (c.merged visits k)) (p : N × K)
    (m : N) (k : K) :
    (c.repairBehind visits s p).rank m k =
      if (m, k) = p then top (c.merged visits k) else s.rank m k := by
  unfold repairBehind
  cases hm : c.merged visits p.2 with
  | none =>
    have htop : top (c.merged visits p.2) = 0 := by rw [hm]; rfl
    grind
  | some q =>
    obtain ⟨w, source⟩ := q
    have htop : top (c.merged visits p.2) = w + 1 := by rw [hm]; rfl
    have hsource : s.rank source p.2 = w + 1 := by
      have hrank := rank_source hm
      have hs' := hs source p.2
      omega
    have hle' := hle p.1 p.2
    have hs' := hs p.1 p.2
    dsimp only
    split
    · rw [rank_repair]
      grind
    next hif =>
      have : s.rank p.1 p.2 = w + 1 := by
        rcases eq_or_ne source p.1 with rfl | hne
        · exact hsource
        · cases hc : c.cache p.1 p.2 <;> simp_all [rank]
          omega
      grind

theorem rank_foldl_repairBehind (h : c.Coherent)
    (hle : ∀ n k, c.rank n k ≤ top (c.merged visits k)) (repairs : List (N × K)) :
    (repairs.foldl (c.repairBehind visits) c).Coherent ∧
      ∀ n k, (repairs.foldl (c.repairBehind visits) c).rank n k =
        if (n, k) ∈ repairs then top (c.merged visits k) else c.rank n k := by
  induction repairs using reverseRecOn with
  | nil => exact ⟨h, fun n k => rfl⟩
  | append_singleton repairs p ih =>
    obtain ⟨hcoh, hrank⟩ := ih
    rw [foldl_append, foldl_cons, foldl_nil]
    refine ⟨?_, fun n k => ?_⟩
    · rw [repairBehind]
      split
      · split
        · exact hcoh.repair _ _ _
        · exact hcoh
      · exact hcoh
    · rw [rank_repairBehind hle (fun n k => ?_)]
      · grind
      · rw [hrank]
        split
        · exact .inr rfl
        · exact .inl rfl

omit [DecidableEq N] [DecidableEq K] in
theorem Coherent.entry_eq (h : c.Coherent) {m : N} (hrank : c.rank n k = c.rank m k) :
    (c.cache n k).map (fun e => (e.value, e.version)) =
      (c.cache m k).map fun e => (e.value, e.version) := by
  cases hn : c.cache n k with
  | none => cases hm : c.cache m k <;> simp_all [rank]
  | some e =>
    cases hm : c.cache m k with
    | none => simp [rank, hn, hm] at hrank
    | some e' =>
      have hversion : e.version = e'.version := by simpa [rank, hn, hm] using hrank
      have hcopy : c.Copy k e.version e'.value := hversion ▸ Copy.cache hm
      simp [h.agree (.cache hn) hcopy, hversion]

/-- If every `Set` happened where no node was ahead, all nodes agree after a reconciliation. -/
theorem runReconciliation_converges (messageBuffer : Nat)
    (hrun : Runs step Latest (init messageBuffer) c) {nodeIDs : List N}
    (hnodes : ∀ n, n ∈ nodeIDs) {repairs : List (N × K)}
    (hvisits : ∀ n k, c.cache n k ≠ none → (n, k) ∈ visits)
    (hrepairs : ∀ n k, c.merged visits k ≠ none → (n, k) ∈ repairs) (n m : N) (k : K) :
    ((c.runReconciliation nodeIDs visits repairs).cache n k).map (fun e => (e.value, e.version)) =
      ((c.runReconciliation nodeIDs visits repairs).cache m k).map
        fun e => (e.value, e.version) := by
  have hcoh : c.Coherent :=
    hrun.invariant (coherent_init messageBuffer) fun _ _ h hlast => h.step hlast
  unfold runReconciliation
  split
  next hlen =>
    have hnm : n = m := by
      match nodeIDs, hlen, hnodes n, hnodes m with
      | [x], _, hn, hm => exact (mem_singleton.mp hn).trans (mem_singleton.mp hm).symm
    rw [hnm]
  · have hle : ∀ n k, c.rank n k ≤ top (c.merged visits k) := by
      intro n k
      by_cases hc : c.cache n k = none
      · simp [rank, hc]
      · exact rank_le_top (hvisits n k hc)
    obtain ⟨hcoh', hrank⟩ := rank_foldl_repairBehind hcoh hle repairs
    refine hcoh'.entry_eq ?_
    have htop : ∀ n, (repairs.foldl (c.repairBehind visits) c).rank n k =
        top (c.merged visits k) := by
      intro n
      rw [hrank]
      split
      · rfl
      next hmem =>
        have hle' := hle n k
        have hnone : c.merged visits k = none := by
          by_contra hne
          exact hmem (hrepairs n k hne)
        simp only [hnone, top, elim_none] at hle' ⊢
        omega
    rw [htop, htop]

def bothNodes : List (Fin 2 × Unit) := [(0, ()), (1, ())]

/-- The second `Set` follows the delivery of the first, and its own messages are dropped. -/
def droppedUpdate : List (Event (Fin 2) Unit Nat) :=
  [.set 0 () 7 [1], .send 0, .deliver 1, .set 1 () 8 []]

theorem runReconciliation_converges_dropped :
    let c := droppedUpdate.foldl step (init 1)
    let c' := c.runReconciliation [0, 1] bothNodes bothNodes
    (c.cache 0 ()).map (·.value) = some 7 ∧ (c'.cache 1 ()).map (·.value) = some 8 ∧
      (c'.cache 0 ()).map (fun e => (e.value, e.version)) =
        (c'.cache 1 ()).map fun e => (e.value, e.version) := by
  have hall : ∀ n, (n, ()) ∈ bothNodes := by decide
  have hlast : AllOk step Latest (init 1) droppedUpdate := by
    simp only [droppedUpdate, AllOk, Latest]
    decide
  exact ⟨rfl, rfl, runReconciliation_converges 1 (Runs.init.steps hlast) (by decide)
    (fun n _ _ => hall n) (fun n _ _ => hall n) 0 1 ()⟩

def conflict : List (Event (Fin 2) Unit Nat) :=
  [.set 0 () 7 [1], .set 1 () 8 [0], .send 0, .send 1, .deliver 0, .deliver 1]

theorem not_runReconciliation_converges :
    ∃ c : Cluster (Fin 2) Unit Nat, Runs step (fun _ _ => True) (init 1) c ∧
      (∀ n, c.inbox n = []) ∧ (∀ p ∈ c.calls, p.2 = []) ∧
      let c' := c.runReconciliation [0, 1] bothNodes bothNodes
      (c'.cache 0 ()).map (·.value) = some 7 ∧ (c'.cache 1 ()).map (·.value) = some 8 := by
  refine ⟨conflict.foldl step (init 1), Runs.init.steps (by simp [AllOk, conflict]), ?_, ?_, ?_⟩
  · intro n
    match n with
    | 0 => rfl
    | 1 => rfl
  · intro p hp
    rcases hp with _ | ⟨_, _ | ⟨_, ⟨⟩⟩⟩ <;> rfl
  · exact ⟨rfl, rfl⟩

end Solocoder.CacheSync.Cluster
