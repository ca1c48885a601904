import Solocoder.DistLock.Redlock
import Solocoder.Lib.Majority

/-!
# Mutual exclusion of Redlock

An acquisition claims its nodes up to its expiry, a call in progress those it has locked. Entries
back the claims as long as clients read the clock promptly and do not take back what they claim.
-/

namespace Solocoder.DistLock

open List Function LockEntry LockManager

/-! ## Claims -/

/-- A token counts on the entry of a node for a key before the time `bound`. -/
structure Claim where
  key : String
  token : String
  node : Nat
  bound : Int
  deriving DecidableEq

/-- What a held lock claims of the nodes. -/
def Acquisition.claims (a : Acquisition) : List Claim :=
  if a.released then [] else a.nodeExpiries.map fun p => ⟨a.key, a.token, p.1, a.expiry⟩

/-- The expiries that a call has written down. -/
def Phase.expiries : Phase → List (Nat × Int)
  | .collect _ expiries => expiries
  | .stamp _ _ _ expiries => expiries
  | .settle expiries => expiries
  | _ => []

/-- The node that has granted the lock and whose expiry is not written down yet. -/
def Phase.granted (ttl : Int) : Phase → List (Nat × Int)
  | .stamp i since _ _ => [(i, since + ttl)]
  | _ => []

/-- What a call under way claims of the nodes. -/
def Call.claims (c : Call) : List Claim :=
  (c.phase.expiries.map fun p => ⟨c.key, c.token, p.1, p.2 - c.cfg.clockDrift⟩) ++
    (c.phase.granted c.ttl).map fun p => ⟨c.key, c.token, p.1, p.2⟩

/-- The nodes that a call has counted or may still count. -/
def Phase.nodes : Phase → List Nat
  | .collect todo expiries => todo ++ expiries.map Prod.fst
  | .stamp i _ todo expiries => i :: (todo ++ expiries.map Prod.fst)
  | .settle expiries => expiries.map Prod.fst
  | _ => []

namespace System

/-- All claims on nodes. -/
def claims (s : System) : List Claim :=
  s.acquisitions.flatMap Acquisition.claims ++ s.calls.flatMap Call.claims

variable (s : System)

def Backed (cl : Claim) : Prop :=
  ∃ e, (s.nodes cl.node).locks cl.key = some e ∧ e.token = cl.token ∧ cl.bound ≤ e.expiresAt

/-- A claim that has not run out. -/
def InForce (key token : String) (i : Nat) (cl : Claim) : Prop :=
  cl ∈ s.claims ∧ cl.key = key ∧ cl.token = token ∧ cl.node = i ∧ s.now < cl.bound

/-- The clock is read within the clock drift, and no node call shortens or drops an entry that its
token claims. -/
def CarefulCall (c : Call) (choice : Nat) : Prop :=
  match c.phase with
  | .stamp _ since _ _ => s.now ≤ since + c.cfg.clockDrift
  | .collect todo _ => ∀ i, todo[c.next choice]? = some i →
      ∀ cl, s.InForce c.key c.token i cl → cl.bound ≤ s.now + c.ttl
  | .giveBack todo _ _ => ∀ i, todo[c.next choice]? = some i →
      ∀ e, (s.nodes i).locks c.key = some e → e.reentrancy ≤ 1 →
        ∀ cl, ¬ s.InForce c.key c.token i cl
  | _ => True

/-- The step of a call is careful. -/
def Careful : Event → Prop
  | .step n choice => ∀ c, s.calls[n]? = some c → s.CarefulCall c choice
  | _ => True

/-- Every event of the run is careful. -/
def CarefulRun : System → List Event → Prop
  | _, [] => True
  | s, e :: events => s.Careful e ∧ CarefulRun (s.step e) events

end System

/-! ## Node calls -/

namespace LockManager

variable {lm : LockManager} {now : Int} {key token : String} {ttl : Int}

/-- What `Lock` and `Heartbeat` of a node do: nothing, remove an expired entry, or set the expiry of
an entry that the token has or may take. -/
inductive Asked (lm : LockManager) (now : Int) (key token : String) (ttl : Int) :
    Option LockErr × LockManager → Prop where
  | refused (err : LockErr) : Asked lm now key token ttl (some err, lm)
  | cleaned (err : LockErr) (e : LockEntry) (he : lm.locks key = some e)
      (hexpired : e.expiresAt < now) : Asked lm now key token ttl (some err, lm.put key none)
  | granted (r : Int)
      (hfree : ∀ e, lm.locks key = some e → e.expiresAt < now ∨ e.token = token) :
      Asked lm now key token ttl (none, lm.put key (some ⟨token, now + ttl, r⟩))

theorem asked_lock : Asked lm now key token ttl (lm.lock now key token ttl) := by
  unfold lock
  split_ifs
  any_goals exact .refused _
  cases hentry : lm.locks key with
  | none => exact .granted 1 (by simp [hentry])
  | some entry =>
    dsimp only
    split_ifs with hexpired htoken hmax
    · exact .granted 1 (by simp_all [isExpired])
    · exact .refused _
    · exact .granted _ (by simp_all)
    · exact .refused _

theorem asked_heartbeat : Asked lm now key token ttl (lm.heartbeat now key token ttl) := by
  unfold heartbeat
  split_ifs
  any_goals exact .refused _
  cases hentry : lm.locks key with
  | none => exact .refused _
  | some entry =>
    dsimp only
    split_ifs with hexpired htoken
    · exact .cleaned _ entry hentry (by simpa [isExpired] using hexpired)
    · exact .refused _
    · obtain rfl := not_not.1 htoken
      exact .granted _ (by simp_all)

/-- `Unlock` leaves an entry in force unless it had the token and was held once. -/
theorem unlock_locks (token : String) {e : LockEntry} (he : lm.locks key = some e)
    (hlive : now ≤ e.expiresAt) (hkept : e.token = token → 1 < e.reentrancy) :
    ∃ e', (lm.unlock now key token).2.locks key = some e' ∧ e'.token = e.token ∧
      e'.expiresAt = e.expiresAt := by
  have hlive : e.isExpired now = false := by
    unfold isExpired
    simpa using hlive
  unfold unlock
  split_ifs
  all_goals try exact ⟨e, he, rfl, rfl⟩
  simp only [he, hlive, Bool.false_eq_true, if_false]
  split
  · exact ⟨e, he, rfl, rfl⟩
  next htoken =>
    have hmore := hkept (not_not.1 htoken)
    rw [if_neg (by omega)]
    exact ⟨_, update_self .., rfl, rfl⟩

theorem unlock_locks_of_ne {other : String} (hne : other ≠ key) :
    (lm.unlock now key token).2.locks other = lm.locks other := by
  unfold unlock put
  repeat' split
  all_goals first
    | rfl
    | exact update_of_ne hne _ _

end LockManager

namespace System

variable {s : System} {cl : Claim}

theorem asked_ask (s : System) (c : Call) (i : Nat) :
    (s.nodes i).Asked s.now c.key c.token c.ttl (s.ask c i) := by
  unfold ask
  split
  · exact asked_lock
  · exact asked_heartbeat

variable {i n : Nat} {key token : String} {c : Call} {expiries : List (Nat × Int)} {todo : List Nat}

theorem backed_setNode {lm : LockManager} (h : s.Backed cl)
    (hnode : cl.node = i → ∃ e, lm.locks cl.key = some e ∧ e.token = cl.token ∧ cl.bound ≤
      e.expiresAt) : (s.setNode i lm).Backed cl := by
  by_cases hi : cl.node = i
  · subst hi
    simpa [Backed, setNode] using hnode rfl
  · simpa [Backed, setNode, hi] using h

theorem Backed.asked {ttl : Int} {answer : Option LockErr × LockManager} (h : s.Backed cl)
    (hlive : s.now < cl.bound) (hasked : (s.nodes i).Asked s.now key token ttl answer)
    (hshort : cl.key = key → cl.token = token → cl.node = i → cl.bound ≤ s.now + ttl) :
    (s.setNode i answer.2).Backed cl := by
  refine backed_setNode h fun hi => ?_
  obtain ⟨e, he, htoken, hbound⟩ := h
  rw [hi] at he
  cases hasked with
  | refused err => exact ⟨e, he, htoken, hbound⟩
  | cleaned err e' he' hexpired =>
    by_cases hkey : cl.key = key
    · rw [hkey, he'] at he
      cases he
      omega
    · exact ⟨e, (update_of_ne hkey _ _).trans he, htoken, hbound⟩
  | granted r hfree =>
    by_cases hkey : cl.key = key
    · rw [hkey] at he ⊢
      rcases hfree e he with hexpired | hsame
      · omega
      · have hsame : cl.token = token := htoken.symm.trans hsame
        exact ⟨_, update_self .., hsame.symm, hshort hkey hsame hi⟩
    · exact ⟨e, (update_of_ne hkey _ _).trans he, htoken, hbound⟩

theorem Backed.unlock (h : s.Backed cl) (hlive : s.now < cl.bound)
    (hkept : cl.key = key → cl.token = token → cl.node = i → ∀ e, (s.nodes i).locks key = some e → 1
      < e.reentrancy) : (s.setNode i ((s.nodes i).unlock s.now key token).2).Backed cl := by
  refine backed_setNode h fun hi => ?_
  obtain ⟨e, he, htoken, hbound⟩ := h
  rw [hi] at he
  by_cases hkey : cl.key = key
  · rw [hkey] at he ⊢
    obtain ⟨e', he', htoken', hexpiry⟩ := unlock_locks token he
      (by omega : s.now ≤ e.expiresAt)
      fun hsame => hkept hkey (htoken.symm.trans hsame) hi e he
    exact ⟨e', he', htoken'.trans htoken, hbound.trans_eq hexpiry.symm⟩
  · exact ⟨e, (unlock_locks_of_ne hkey).trans he, htoken, hbound⟩

/-! ## Runs -/

def Distinct (n : Nat) (nodes : List Nat) : Prop := nodes.Nodup ∧ ∀ i ∈ nodes, i < n

theorem Distinct.perm {n : Nat} {nodes nodes' : List Nat} (h : Distinct n nodes)
    (hperm : nodes'.Perm nodes) : Distinct n nodes' :=
  ⟨hperm.nodup_iff.2 h.1, fun i hi => h.2 i (hperm.subset hi)⟩

/-- What holds in every state of a careful run. -/
structure Sound (s : System) : Prop where
  backed : ∀ cl ∈ s.claims, s.now < cl.bound → s.Backed cl
  acquired : ∀ a ∈ s.acquisitions, Distinct s.nodeCount (a.nodeExpiries.map Prod.fst) ∧
    majority s.nodeCount ≤ a.nodeExpiries.length
  calls : ∀ c ∈ s.calls, Distinct s.nodeCount c.phase.nodes

theorem mem_claims : cl ∈ s.claims ↔
    (∃ a ∈ s.acquisitions, cl ∈ a.claims) ∨ ∃ c ∈ s.calls, cl ∈ c.claims := by
  unfold claims
  rw [mem_append, mem_flatMap, mem_flatMap]

section

variable {phase : Phase} (h : Sound s) (hc : s.calls[n]? = some c) (hphase : c.phase = phase)
include h hc hphase

theorem Sound.claimed :
    ∀ cl ∈ ({ c with phase := phase } : Call).claims, s.now < cl.bound → s.Backed cl := by
  subst hphase
  exact fun cl hcl => h.backed cl (mem_claims.2 (.inr ⟨c, mem_of_getElem? hc, hcl⟩))

theorem Sound.distinct : Distinct s.nodeCount phase.nodes :=
  hphase ▸ h.calls c (mem_of_getElem? hc)

end

theorem Sound.setNode {lm : LockManager} (h : Sound s)
    (hkeep : ∀ cl ∈ s.claims, s.now < cl.bound → (s.setNode i lm).Backed cl) :
    Sound (s.setNode i lm) :=
  ⟨hkeep, h.acquired, h.calls⟩

/-- New acquisitions and calls keep the invariant when their nodes are in order and their claims are
backed. -/
theorem Sound.replace {acquisitions : List Acquisition} {calls : List Call} (h : Sound s)
    (hacquired : ∀ a ∈ acquisitions, a ∈ s.acquisitions ∨
      (Distinct s.nodeCount (a.nodeExpiries.map Prod.fst) ∧
        majority s.nodeCount ≤ a.nodeExpiries.length) ∧
      ∀ cl ∈ a.claims, s.now < cl.bound → s.Backed cl)
    (hcalls : ∀ c ∈ calls, c ∈ s.calls ∨ Distinct s.nodeCount c.phase.nodes ∧
      ∀ cl ∈ c.claims, s.now < cl.bound → s.Backed cl) :
    Sound { s with acquisitions := acquisitions, calls := calls } := by
  refine ⟨fun cl hcl hlive => ?_, fun a ha => ?_, fun c hc => ?_⟩
  · rcases mem_claims.mp hcl with ⟨a, ha, hcl⟩ | ⟨c, hc, hcl⟩
    · rcases hacquired a ha with ha | ⟨-, hnew⟩
      · exact h.backed cl (mem_claims.mpr (Or.inl ⟨a, ha, hcl⟩)) hlive
      · exact hnew cl hcl hlive
    · rcases hcalls c hc with hc | ⟨-, hnew⟩
      · exact h.backed cl (mem_claims.mpr (Or.inr ⟨c, hc, hcl⟩)) hlive
      · exact hnew cl hcl hlive
  · exact (hacquired a ha).elim (h.acquired a) And.left
  · exact (hcalls c hc).elim (h.calls c) And.left

theorem Sound.setPhase {phase : Phase} (h : Sound s) (hnodes : Distinct s.nodeCount phase.nodes)
    (hnew : ∀ cl ∈ ({ c with phase := phase } : Call).claims, s.now < cl.bound → s.Backed cl) :
    Sound (s.setPhase n c phase) := by
  refine h.replace (fun a => Or.inl) fun c' hc' => ?_
  rcases mem_or_eq_of_mem_set hc' with hc' | rfl
  · exact Or.inl hc'
  · exact Or.inr ⟨hnodes, hnew⟩

theorem distinct_nil : Distinct n [] := ⟨nodup_nil, nofun⟩

theorem Sound.setPhase_idle {phase : Phase} (h : Sound s) (hnodes : phase.nodes = [])
    (hclaims : ({ c with phase := phase } : Call).claims = []) : Sound (s.setPhase n c phase) :=
  h.setPhase (hnodes ▸ distinct_nil) (by simp [hclaims])

theorem Sound.start (h : Sound s) (hnodes : Distinct s.nodeCount c.phase.nodes)
    (hclaims : c.claims = []) : Sound (s.start c) := by
  refine h.replace (fun a => Or.inl) fun c' hc' => (mem_append.1 hc').imp_right fun hc' => ?_
  rw [mem_singleton.1 hc', hclaims]
  exact ⟨hnodes, forall_mem_nil _⟩

theorem minExpiry_le {cfg : RedlockConfig} {p : Nat × Int} (hp : p ∈ expiries) :
    minExpiry cfg expiries ≤ p.2 - cfg.clockDrift := by
  have hfold : ∀ (l : List (Nat × Int)) (m : Int),
      l.foldl (fun m p => min m p.2) m ≤ m ∧ ∀ p ∈ l, l.foldl (fun m p => min m p.2) m ≤ p.2 := by
    intro l m
    induction l generalizing m with
    | nil => exact ⟨le_refl m, forall_mem_nil _⟩
    | cons q l ih =>
      obtain ⟨hle, hall⟩ := ih (min m q.2)
      refine ⟨hle.trans (min_le_left _ _), forall_mem_cons.mpr ⟨?_, hall⟩⟩
      exact hle.trans (min_le_right _ _)
  cases expiries with
  | nil => cases hp
  | cons q l =>
    obtain ⟨hle, hall⟩ := hfold l q.2
    rcases mem_cons.mp hp with rfl | hp
    · exact Int.sub_le_sub_right hle _
    · exact Int.sub_le_sub_right (hall p hp) _

theorem nodes_pick (rest : List Nat) {j : Nat} (hi : todo[j]? = some i) :
    (i :: (todo.eraseIdx j ++ rest)).Perm (todo ++ rest) := by
  obtain ⟨hj, rfl⟩ := List.getElem?_eq_some_iff.mp hi
  exact (getElem_cons_eraseIdx_perm hj).append_right rest

theorem Sound.collect {j : Nat} (h : Sound s) (hc : s.calls[n]? = some c)
    (hphase : c.phase = .collect todo expiries) (hi : todo[j]? = some i)
    (hcareful : ∀ cl, s.InForce c.key c.token i cl → cl.bound ≤ s.now + c.ttl) :
    Sound (s.collect n c i (todo.eraseIdx j) expiries) := by
  have hpicked := (h.distinct hc hphase).perm (nodes_pick (expiries.map Prod.fst) hi)
  have hasked := s.asked_ask c i
  have hset : Sound (s.setNode i (s.ask c i).2) := by
    refine h.setNode fun cl hcl hlive => (h.backed cl hcl hlive).asked hlive hasked ?_
    exact fun hkey htoken hnode => hcareful cl ⟨hcl, hkey, htoken, hnode, hlive⟩
  -- the expiries that are written down are claimed as before
  have hold := hset.claimed hc hphase
  unfold System.collect
  dsimp only
  split
  next hgranted =>
    refine hset.setPhase hpicked fun cl hcl hlive => ?_
    rcases mem_append.1 hcl with hcl | hcl
    · exact hold cl (mem_append_left _ hcl) hlive
    · cases mem_singleton.1 hcl
      generalize s.ask c i = answer at hasked hgranted ⊢
      cases hasked with
      | refused err => cases hgranted
      | cleaned err e he hexpired => cases hgranted
      | granted r hfree => simp [Backed, System.setNode, LockManager.put]
  · exact hset.setPhase ⟨(nodup_cons.1 hpicked.1).2, (forall_mem_cons.1 hpicked.2).2⟩ hold

/-- The clock is read within the clock drift: the expiry that is written down is covered. -/
theorem Sound.stamp {since : Int} (h : Sound s) (hc : s.calls[n]? = some c)
    (hphase : c.phase = .stamp i since todo expiries) (hprompt : s.now ≤ since + c.cfg.clockDrift) :
    Sound (s.setPhase n c (.collect todo (expiries ++ [(i, s.now + c.ttl)]))) := by
  have hperm : (todo ++ (expiries ++ [(i, s.now + c.ttl)]).map Prod.fst).Perm
      (i :: (todo ++ expiries.map Prod.fst)) := by
    rw [map_append, ← append_assoc]
    exact perm_append_singleton i _
  have hold := h.claimed hc hphase
  refine h.setPhase ((h.distinct hc hphase).perm hperm) fun cl hcl hlive => ?_
  rcases mem_append.1 hcl with hcl | hcl
  · obtain ⟨p, hp, rfl⟩ := mem_map.1 hcl
    rcases mem_append.1 hp with hp | hp
    · exact hold _ (mem_append_left _ (mem_map_of_mem hp)) hlive
    · cases mem_singleton.1 hp
      dsimp only at hlive
      obtain ⟨e, he, htoken, hbound⟩ := hold ⟨c.key, c.token, i, since + c.ttl⟩
        (mem_append_right _ (mem_singleton_self _)) (by dsimp only; omega)
      exact ⟨e, he, htoken, by dsimp only at hbound ⊢; omega⟩
  · cases hcl

theorem Sound.settle (h : Sound s) (hc : s.calls[n]? = some c)
    (hphase : c.phase = .settle expiries) : Sound (s.settle n c expiries) := by
  unfold System.settle
  split
  · split <;> exact h.setPhase_idle rfl rfl
  next hsuccess =>
    rw [not_or, Nat.not_lt] at hsuccess
    have hdone : Sound (s.setPhase n c (.done none)) := h.setPhase_idle rfl rfl
    refine hdone.replace (fun a ha => (mem_append.1 ha).imp_right fun ha => ?_) fun c => Or.inl
    cases mem_singleton.1 ha
    refine ⟨⟨h.distinct hc hphase, hsuccess.1⟩, fun cl hcl hlive => ?_⟩
    -- what the new acquisition claims, the call has claimed for at least as long
    obtain ⟨p, hp, rfl⟩ := mem_map.1 hcl
    have hle : minExpiry c.cfg expiries ≤ p.2 - c.cfg.clockDrift := minExpiry_le hp
    obtain ⟨e, he, htoken, hbound⟩ := h.claimed hc hphase
      ⟨c.key, c.token, p.1, p.2 - c.cfg.clockDrift⟩ (mem_append_left _ (mem_map.2 ⟨p, hp, rfl⟩))
      (lt_of_lt_of_le hlive hle)
    exact ⟨e, he, htoken, hle.trans hbound⟩

theorem Sound.giveBack {succeeded failed : Bool} (h : Sound s)
    (hcareful : ∀ e, (s.nodes i).locks c.key = some e → e.reentrancy ≤ 1 → ∀ cl, ¬ s.InForce c.key
      c.token i cl) : Sound (s.giveBack n c i todo succeeded failed) := by
  have hset : Sound (s.setNode i ((s.nodes i).unlock s.now c.key c.token).2) := by
    refine h.setNode fun cl hcl hlive => (h.backed cl hcl hlive).unlock hlive ?_
    intro hkey htoken hnode e he
    by_contra honce
    exact hcareful e he (not_lt.mp honce) cl ⟨hcl, hkey, htoken, hnode, hlive⟩
  exact hset.setPhase_idle rfl rfl

theorem distinct_range (n : Nat) : Distinct n (List.range n ++ []) := by
  rw [append_nil]
  exact ⟨nodup_range, fun i hi => mem_range.1 hi⟩

section

variable (h : Sound s)
include h

theorem Sound.advance {choice : Nat} (hc : s.calls[n]? = some c)
    (hcareful : s.CarefulCall c choice) : Sound (s.advance n c choice) := by
  unfold CarefulCall at hcareful
  unfold System.advance
  cases hphase : c.phase with
  | enter =>
    dsimp only
    split
    · split
      · exact h.setPhase_idle rfl rfl
      · exact h.setPhase (distinct_range _) nofun
    · exact h.setPhase (distinct_range _) nofun
  | collect todo expiries =>
    rw [hphase] at hcareful
    cases todo with
    | nil =>
      have hnodes := h.distinct hc hphase
      have hclaims := h.claimed hc hphase
      exact h.setPhase hnodes hclaims
    | cons k todo =>
      dsimp only
      split
      next i hi => exact h.collect hc hphase hi (hcareful i hi)
      · exact h
  | stamp i since todo expiries =>
    rw [hphase] at hcareful
    exact h.stamp hc hphase hcareful
  | settle expiries => exact h.settle hc hphase
  | giveBack todo succeeded failed =>
    rw [hphase] at hcareful
    cases todo with
    | nil =>
      dsimp only
      split
      · split <;> exact h.setPhase_idle rfl rfl
      · exact h.setPhase_idle rfl rfl
      · exact h.setPhase_idle rfl rfl
    | cons k todo =>
      dsimp only
      split
      next i hi => exact h.giveBack (hcareful i hi)
      · exact h
  | done err => exact h

theorem Sound.startLock {cfg : RedlockConfig} {kind : Kind} {ttl : Int} :
    Sound (s.startLock cfg kind key token ttl) := by
  unfold System.startLock
  split_ifs <;> exact h.start distinct_nil rfl

theorem Sound.tick (d : Nat) : Sound { s with now := s.now + d } := by
  refine ⟨fun cl hcl hlive => h.backed cl hcl ?_, h.acquired, h.calls⟩
  dsimp only at hlive
  omega

theorem Sound.release {a : Nat} {acq : Acquisition} (hacq : s.acquisitions[a]? = some acq) :
    Sound { s with acquisitions := s.acquisitions.set a { acq with released := true } } := by
  refine h.replace (fun b hb => ?_) fun c => Or.inl
  rcases mem_or_eq_of_mem_set hb with hb | rfl
  · exact Or.inl hb
  · exact Or.inr ⟨h.acquired acq (mem_of_getElem? hacq), forall_mem_nil _⟩

theorem Sound.step {e : Event} (hcareful : s.Careful e) : Sound (s.step e) := by
  cases e with
  | tick d => exact h.tick d
  | lock cfg key token ttl =>
    unfold System.step
    dsimp only
    split
    · exact h.startLock
    · exact h
  | tryLock cfg key token ttl =>
    unfold System.step
    dsimp only
    split
    · exact h.startLock
    · exact h
  | unlock cfg a =>
    unfold System.step
    dsimp only
    split
    next cfg acq hcfg hacq => exact (h.release hacq).start distinct_nil rfl
    · exact h
  | heartbeat cfg a ttl =>
    unfold System.step
    dsimp only
    split
    next cfg acq hcfg hacq =>
      split
      · exact h.start distinct_nil rfl
      · refine h.start ?_ rfl
        simpa [Phase.nodes] using (h.acquired acq (mem_of_getElem? hacq)).1
    · exact h
  | step n choice =>
    unfold System.step
    dsimp only
    split
    next c hc => exact h.advance hc (hcareful c hc)
    · exact h

theorem Sound.run {events : List Event} (hcareful : s.CarefulRun events) :
    Sound (s.run events) := by
  induction events generalizing s with
  | nil => exact h
  | cons e events ih => exact ih (h.step hcareful.1) hcareful.2

theorem Sound.majority_nodes {a : Acquisition} (ha : a ∈ s.acquisitions) :
    Lib.Majority (Finset.range s.nodeCount) (a.nodeExpiries.map Prod.fst).toFinset := by
  obtain ⟨⟨hnodup, hlt⟩, hcount⟩ := h.acquired a ha
  refine ⟨fun i hi => ?_, ?_⟩
  · rw [Finset.mem_range]
    exact hlt i (mem_toFinset.mp hi)
  · rw [Finset.card_range, toFinset_card_of_nodup hnodup, length_map]
    exact hcount

theorem Sound.exclusion {a b : Acquisition} (ha : a ∈ s.acquisitions)
    (hb : b ∈ s.acquisitions) (hkey : a.key = b.key) (havalid : a.isValid s.now = true)
    (hbvalid : b.isValid s.now = true) : a.token = b.token := by
  have hbacked : ∀ a ∈ s.acquisitions, a.isValid s.now = true → ∀ i ∈ a.nodeExpiries.map Prod.fst,
        ∃ e, (s.nodes i).locks a.key = some e ∧ e.token = a.token := by
    intro a ha hvalid i hi
    unfold Acquisition.isValid at hvalid
    rw [Bool.and_eq_true, decide_eq_true_eq, Bool.not_eq_true'] at hvalid
    obtain ⟨p, hp, rfl⟩ := mem_map.mp hi
    have hclaim : (⟨a.key, a.token, p.1, a.expiry⟩ : Claim) ∈ s.claims := by
      refine mem_claims.mpr (Or.inl ⟨a, ha, ?_⟩)
      unfold Acquisition.claims
      rw [if_neg (by simp [hvalid.1])]
      exact mem_map.mpr ⟨p, hp, rfl⟩
    obtain ⟨e, he, htoken, -⟩ := h.backed _ hclaim hvalid.2
    exact ⟨e, he, htoken⟩
  obtain ⟨i, hia, hib⟩ := (h.majority_nodes ha).inter (h.majority_nodes hb)
  obtain ⟨e, he, hetoken⟩ := hbacked a ha havalid i (mem_toFinset.mp hia)
  obtain ⟨e', he', hetoken'⟩ := hbacked b hb hbvalid i (mem_toFinset.mp hib)
  rw [hkey, he'] at he
  cases he
  rw [← hetoken, hetoken']

end

/-- No calls yet, with nodes in any state. -/
def init (nodeCount : Nat) (now : Int) (nodes : Nat → LockManager) : System :=
  ⟨nodeCount, now, nodes, [], []⟩

theorem sound_init (nodeCount : Nat) (now : Int) (nodes : Nat → LockManager) :
    Sound (init nodeCount now nodes) :=
  ⟨forall_mem_nil _, forall_mem_nil _, forall_mem_nil _⟩

/-- In every careful run, two valid acquisitions of a key have the same token. -/
theorem redlock_exclusion (nodeCount : Nat) (now : Int) (nodes : Nat → LockManager)
    (events : List Event) (h : (init nodeCount now nodes).CarefulRun events) (s : System)
    (hs : s = (init nodeCount now nodes).run events) (a b : Acquisition)
    (ha : a ∈ s.acquisitions) (hb : b ∈ s.acquisitions) (hkey : a.key = b.key)
    (havalid : a.isValid s.now = true) (hbvalid : b.isValid s.now = true) :
    a.token = b.token := by
  have hsound : Sound s := by
    rw [hs]
    exact (sound_init nodeCount now nodes).run h
  exact hsound.exclusion ha hb hkey havalid hbvalid

/-! ## Runs -/

def carefulCheck (s : System) (c : Call) (choice : Nat) : Bool :=
  match c.phase with
  | .stamp _ since _ _ => s.now ≤ since + c.cfg.clockDrift
  | .collect todo _ => ∀ i ∈ todo[c.next choice]?, ∀ cl ∈ s.claims,
      cl.key = c.key ∧ cl.token = c.token ∧ cl.node = i ∧ s.now < cl.bound →
        cl.bound ≤ s.now + c.ttl
  | .giveBack todo _ _ => ∀ i ∈ todo[c.next choice]?, ∀ e ∈ (s.nodes i).locks c.key,
      e.reentrancy ≤ 1 → ∀ cl ∈ s.claims,
        ¬ (cl.key = c.key ∧ cl.token = c.token ∧ cl.node = i ∧ s.now < cl.bound)
  | _ => true

def carefulRunCheck : System → List Event → Bool
  | _, [] => true
  | s, .step n choice :: events =>
    s.calls[n]?.all (s.carefulCheck · choice) && carefulRunCheck (s.step (.step n choice)) events
  | s, e :: events => carefulRunCheck (s.step e) events

theorem carefulCall_of_check {choice : Nat} (h : s.carefulCheck c choice = true) :
    s.CarefulCall c choice := by
  unfold carefulCheck at h
  unfold CarefulCall InForce
  split at h <;> simp_all

theorem carefulRun_of_check {events : List Event} (h : carefulRunCheck s events = true) :
    s.CarefulRun events := by
  induction events generalizing s with
  | nil => trivial
  | cons e events ih =>
    cases e with
    | step n choice =>
      rw [carefulRunCheck, Bool.and_eq_true] at h
      refine ⟨fun c hc => carefulCall_of_check ?_, ih h.2⟩
      simpa [hc] using h.1
    | _ => exact ⟨trivial, ih h⟩

def freshNode (_ : Nat) : LockManager := ⟨⟨32, 100000000⟩, fun _ => none, false⟩

/-- A `TryLock` for one second as call number `n`, which reads the clock `lag` nanoseconds after the
call of the node. -/
def tryLockWithLag (n : Nat) (token : String) (lag : Nat) : List Event :=
  [.tryLock defaultRedlockConfig "k" token 1000000000, .step n 0, .step n 0, .tick lag, .step n 0,
    .step n 0, .step n 0]

/-- Of three nodes a client locks two, and its heartbeat for two seconds finds them; in between
another client gets only the third one. -/
def lockAndHeartbeat : List Event :=
  .tryLock defaultRedlockConfig "k" "a" 1000000000 :: replicate 5 (.step 0 0) ++
    .tryLock defaultRedlockConfig "k" "b" 1000000000 :: replicate 5 (.step 1 0) ++
    .tick 10000000 :: replicate 5 (.step 0 0) ++ replicate 8 (.step 1 0) ++
    .heartbeat defaultRedlockConfig 0 2000000000 :: replicate 7 (.step 2 0)

theorem redlock_exclusion_heartbeat :
    let s := (init 3 0 freshNode).run lockAndHeartbeat
    let a : Acquisition := ⟨"k", "a", 950000000, [(0, 1000000000), (1, 1000000000)], 3, 2, false⟩
    let b : Acquisition := ⟨"k", "a", 1960000000, [(0, 2010000000), (1, 2010000000)], 3, 2, false⟩
    s.acquisitions = [a, b] ∧ s.calls.map (fun c => (c.token, c.phase)) =
        [("a", .done none), ("b", .done (some .quorumNotReached)), ("a", .done none)] ∧
      a.isValid s.now = true ∧ b.isValid s.now = true ∧ a.token = b.token := by
  refine ⟨by decide +kernel, by decide +kernel, by decide +kernel, by decide +kernel, ?_⟩
  exact redlock_exclusion 3 0 freshNode lockAndHeartbeat (carefulRun_of_check (by decide +kernel)) _
    rfl _ _ (by decide +kernel) (by decide +kernel) rfl (by decide +kernel) (by decide +kernel)

/-- The first client reads the clock 100 milliseconds late: its acquisition outlives the entry. -/
theorem not_redlock_exclusion_late :
    let s := (init 1 0 freshNode).run (tryLockWithLag 0 "a" 100000000 ++ [.tick 901000000] ++
      tryLockWithLag 1 "b" 0)
    ∃ a ∈ s.acquisitions, ∃ b ∈ s.acquisitions, a.key = b.key ∧ a.isValid s.now = true ∧
      b.isValid s.now = true ∧ a.token ≠ b.token := by
  all_goals decide

end System

end Solocoder.DistLock
