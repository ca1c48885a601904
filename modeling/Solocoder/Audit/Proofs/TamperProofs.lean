import Solocoder.Audit.Proofs.TextProofs
import Solocoder.Audit.Proofs.VerifyProofs

/-!
# Which replaced records are found

In every reachable state the records in memory form an intact chain, and the writer has copies of
them.
-/

namespace Solocoder.Audit

open List Logger AuditLog

open Lib (Linked lastMark)

variable {sum256 : Str → Str}

/-- What holds in every reachable state of a logger with a hash chain. -/
structure Sound (sum256 : Str → Str) (s : System) : Prop where
  chain : s.logger.cfg.enableHashChain = true
  hashed : Hashed sum256 s.logger.logs
  linked : Linked previousHash currentHash [] s.logger.logs
  last : s.logger.lastHash = lastMark currentHash [] s.logger.logs
  ids : ∀ log ∈ s.logger.logs, ∃ now k, k ≤ s.logger.idCounter ∧ log.eventID = eventID now k
  nodup : (s.logger.logs.map AuditLog.eventID).Nodup
  copies : ∀ log ∈ s.pending ++ s.stored, log ∈ s.logger.logs
  once : ((s.pending ++ s.stored).map AuditLog.eventID).Nodup

variable {s : System} {log log' : AuditLog} {i : Nat}

section

variable (h : Sound sum256 s)
include h

theorem Sound.mirrors : Mirrors s.stored s.logger.logs where
  nodup := by
    have := h.once
    rw [map_append] at this
    exact (nodup_append.mp this).2.1
  nodup_mem := h.nodup
  copied := fun wl hwl => ⟨wl, h.copies wl (mem_append_right _ hwl), rfl, rfl, rfl⟩

theorem Sound.hashed_stored : Hashed sum256 s.stored :=
  fun wl hwl => h.hashed wl (h.copies wl (mem_append_right _ hwl))

/-- The record that `createLog` makes. -/
def System.created (sum256 : Str → Str) (s : System) (entry : Entry) (now timestamp : Time) :
    AuditLog :=
  { s.logger.record entry now timestamp with
    currentHash := computeHash sum256 (s.logger.record entry now timestamp) }

theorem Sound.create_eq (entry : Entry) (now timestamp : Time) :
    s.create sum256 entry now timestamp =
      let log := s.created sum256 entry now timestamp
      { s with
        logger := { s.logger with
          logs := s.logger.logs ++ [log]
          lastHash := log.currentHash
          idCounter := s.logger.idCounter + 1 }
        pending := s.pending ++ [log] } := by
  unfold System.create createLog System.created
  rw [if_pos h.chain]

omit h in
theorem nodup_map_concat {logs : List AuditLog} (h : (logs.map AuditLog.eventID).Nodup)
    (hnew : ∀ other ∈ logs, other.eventID ≠ log.eventID) :
    ((logs ++ [log]).map AuditLog.eventID).Nodup := by
  rw [map_append, map_singleton, ← concat_eq_append]
  exact h.concat (by simpa using hnew)

theorem Sound.create (entry : Entry) (now timestamp : Time) :
    Sound sum256 (s.create sum256 entry now timestamp) := by
  rw [h.create_eq]
  set log := s.created sum256 entry now timestamp
  have hid : log.eventID = eventID now (s.logger.idCounter + 1) := rfl
  have hperm : ((s.pending ++ [log]) ++ s.stored).Perm ((s.pending ++ s.stored) ++ [log]) := by
    rw [append_assoc, append_assoc]
    exact perm_append_comm.append_left _
  -- the counter of the new record is larger than all before it
  have hnew : ∀ other ∈ s.logger.logs, other.eventID ≠ log.eventID := by
    intro other hother heq
    obtain ⟨now', k, hk, hother⟩ := h.ids other hother
    rw [hother] at heq
    have := eventID_counter_inj heq
    omega
  constructor
  · exact h.chain
  · exact forall_mem_append.mpr ⟨h.hashed, forall_mem_singleton.mpr rfl⟩
  · exact Lib.linked_concat.mpr ⟨h.linked, h.last⟩
  · dsimp only
    exact Lib.lastMark_concat.symm
  · refine forall_mem_append.mpr ⟨fun other hother => ?_, forall_mem_singleton.mpr ?_⟩
    · obtain ⟨now', k, hk, hother⟩ := h.ids other hother
      exact ⟨now', k, Nat.le_succ_of_le hk, hother⟩
    · exact ⟨now, s.logger.idCounter + 1, le_refl _, hid⟩
  · exact nodup_map_concat h.nodup hnew
  · intro other hother
    rcases mem_append.mp (hperm.subset hother) with hother | hother
    · exact mem_append_left _ (h.copies other hother)
    · exact mem_append_right _ hother
  · refine (hperm.map _).nodup_iff.mpr (nodup_map_concat h.once ?_)
    exact fun other hother => hnew other (h.copies other hother)

theorem Sound.step (e : Event) : Sound sum256 (s.step sum256 e) := by
  cases e with
  | start =>
    unfold System.step
    dsimp only
    split
    · exact h
    · exact { h with }
  | stop => exact { h with }
  | log entry now timestamp =>
    cases entry with
    | none => exact h
    | some entry =>
      unfold System.step
      dsimp only
      split
      · exact h
      · exact h.create entry now timestamp
  | write i =>
    unfold System.step
    dsimp only
    split
    next log hlog =>
      obtain ⟨hi, rfl⟩ := List.getElem?_eq_some_iff.mp hlog
      have hperm : (s.pending.eraseIdx i ++ (s.stored ++ [s.pending[i]])).Perm
          (s.pending ++ s.stored) := by
        rw [← append_assoc]
        refine perm_append_comm.trans ?_
        exact (getElem_cons_eraseIdx_perm hi).append_right s.stored
      exact { h with
        copies := fun log hlog => h.copies log (hperm.subset hlog)
        once := (hperm.map _).nodup_iff.mpr h.once }
    · exact h
  | drop i =>
    have hsub : (s.pending.eraseIdx i ++ s.stored).Sublist (s.pending ++ s.stored) :=
      (eraseIdx_sublist _ _).append_right _
    exact { h with
      copies := fun log hlog => h.copies log (hsub.subset hlog)
      once := (hsub.map _).nodup h.once }

theorem Sound.run {events : List Event} : Sound sum256 (s.run sum256 events) := by
  induction events generalizing s with
  | nil => exact h
  | cons e events ih => exact ih (h.step e)

end

theorem newSystem_eq {cfg : Config} {readable : Bool} (h : newSystem cfg readable = .ok s) :
    s = ⟨⟨cfg, [], [], 0, false, false⟩, [], readable, []⟩ := by
  unfold newSystem newLoggerWithConfig at h
  split_ifs at h <;> cases h
  rfl

theorem sound_newSystem {cfg : Config} {readable : Bool} (hchain : cfg.enableHashChain = true)
    (h : newSystem cfg readable = .ok s) : Sound sum256 s := by
  rw [newSystem_eq h]
  exact ⟨hchain, forall_mem_nil _, trivial, rfl, forall_mem_nil _, nodup_nil,
    forall_mem_nil _, nodup_nil⟩

theorem readable_run (events : List Event) (s : System) :
    (s.run sum256 events).readable = s.readable := by
  induction events generalizing s with
  | nil => rfl
  | cons e events ih =>
    refine (ih _).trans ?_
    unfold System.step
    repeat' split
    all_goals rfl

theorem hashed_set_iff {logs : List AuditLog} (hsum : Function.Injective sum256)
    (h : Hashed sum256 logs) (hlog : logs[i]? = some log)
    (hkept : log'.currentHash = log.currentHash) :
    Hashed sum256 (logs.set i log') ↔ hashText log' = hashText log := by
  have hown : log.currentHash = computeHash sum256 log := h log (mem_of_getElem? hlog)
  obtain ⟨hi, -⟩ := List.getElem?_eq_some_iff.mp hlog
  have hiff : log'.currentHash = computeHash sum256 log' ↔ hashText log' = hashText log := by
    rw [hkept, hown, computeHash_eq_iff hsum]
    exact eq_comm
  constructor
  · intro hset
    exact hiff.mp (hset log' (mem_set hi log'))
  · intro htext other hother
    rcases mem_or_eq_of_mem_set hother with hother | rfl
    · exact h other hother
    · exact hiff.mpr htext

theorem Sound.intact_set_iff (h : Sound sum256 s) (hsum : Function.Injective sum256)
    (hlog : s.logger.logs[i]? = some log) (hkept : log'.currentHash = log.currentHash) :
    Intact sum256 (s.logger.logs.set i log') ↔
      hashText log' = hashText log ∧ log'.previousHash = log.previousHash := by
  unfold Intact
  rw [hashed_set_iff hsum h.hashed hlog hkept, Lib.linked_set_iff h.linked hlog hkept]

theorem Sound.eventID_fresh (h : Sound sum256 s) (hlog : log ∈ s.logger.logs)
    (htext : hashText log' = hashText log) (hid : log'.eventID ≠ log.eventID) :
    ∀ other ∈ s.logger.logs, other.eventID ≠ log'.eventID := by
  have hseparator : ∀ other ∈ s.logger.logs, (124 : UInt8) ∉ other.eventID := by
    intro other hother
    obtain ⟨now, k, -, heq⟩ := h.ids other hother
    rw [heq]
    exact separator_notMem_eventID now k
  intro other hother heq
  refine hid (eventID_eq_of_hashText_eq htext ?_ (hseparator log hlog))
  rw [← heq]
  exact hseparator other hother

theorem Sound.mirrors_set (h : Sound sum256 s) (hlog : s.logger.logs[i]? = some log)
    (hkept : log'.currentHash = log.currentHash) (htext : hashText log' = hashText log)
    (hprev : log'.previousHash = log.previousHash)
    (hwriter : log'.eventID ≠ log.eventID → log ∉ s.stored) :
    Mirrors s.stored (s.logger.logs.set i log') := by
  obtain ⟨hi, hget⟩ := List.getElem?_eq_some_iff.mp hlog
  refine ⟨h.mirrors.nodup, ?_, fun wl hwl => ?_⟩
  · rw [map_set]
    by_cases hid : log'.eventID = log.eventID
    · rw [hid, ← hget, ← map_set, set_getElem_self]
      exact h.nodup
    · refine h.nodup.set fun hmem => ?_
      obtain ⟨other, hother, heq⟩ := mem_map.mp hmem
      exact h.eventID_fresh (mem_of_getElem? hlog) htext hid other hother heq
  · by_cases heq : wl = log
    · subst heq
      have hid : log'.eventID = wl.eventID := by
        by_contra hid
        exact hwriter hid hwl
      exact ⟨log', mem_set hi log', hid, hprev, hkept⟩
    · obtain ⟨j, hj⟩ := mem_iff_getElem?.mp (h.copies wl (mem_append_right _ hwl))
      have hij : i ≠ j := by
        rintro rfl
        exact heq (Option.some.inj (hj.symm.trans hlog))
      refine ⟨wl, mem_of_getElem? (i := j) ?_, rfl, rfl, rfl⟩
      rw [getElem?_set_ne hij]
      exact hj

theorem Sound.eventID_notMem_set (h : Sound sum256 s) (hlog : s.logger.logs[i]? = some log)
    (hid : log'.eventID ≠ log.eventID) :
    log.eventID ∉ (s.logger.logs.set i log').map AuditLog.eventID := by
  intro hmem
  obtain ⟨other, hother, heq⟩ := mem_map.mp hmem
  obtain ⟨j, hj⟩ := mem_iff_getElem?.mp hother
  rw [getElem?_set] at hj
  split at hj
  · split at hj
    · cases hj
      exact hid heq
    · cases hj
  next hij =>
    -- another record would have the id of the old one
    obtain ⟨hi, -⟩ := List.getElem?_eq_some_iff.mp hlog
    have hi : i < (s.logger.logs.map AuditLog.eventID).length := by rwa [length_map]
    refine hij ((getElem?_inj hi h.nodup).mp ?_)
    rw [getElem?_map, getElem?_map, hlog, hj, Option.map_some, Option.map_some, heq]

theorem verifyIntegrity_tamper_of_valid
    (h : (verifyLogChainStrict sum256 (s.logger.logs.set i log) (str "memory")).valid = true) :
    (s.tamper i log).verifyIntegrity sum256 =
      if s.readable then
        verifyLogSetConsistency sum256 s.stored (s.logger.logs.set i log) false
      else verifyLogChainStrict sum256 (s.logger.logs.set i log) (str "memory") := by
  unfold System.verifyIntegrity System.tamper verifyIntegrityLocked
  dsimp only
  rw [h]
  cases s.readable <;> rfl

theorem verifyIntegrity_tamper_of_invalid
    (h : ¬ (verifyLogChainStrict sum256 (s.logger.logs.set i log) (str "memory")).valid = true) :
    ((s.tamper i log).verifyIntegrity sum256).valid = false := by
  unfold System.verifyIntegrity System.tamper verifyIntegrityLocked
  rw [if_pos (by simpa using h)]
  exact Bool.eq_false_iff.mpr h

/-- A record replaced by one with the same hash is found exactly if the hashed text or the previous
hash changes, or the event id while the writer has the old record. -/
theorem verifyIntegrity_detects_iff (sum256 : Str → Str) (hsum : Function.Injective sum256)
    (cfg : Config) (hchain : cfg.enableHashChain = true) (readable : Bool) (s₀ s : System)
    (hnew : newSystem cfg readable = .ok s₀) (events : List Event)
    (hs : s = s₀.run sum256 events) (i : Nat) (log log' : AuditLog)
    (hlog : s.logger.logs[i]? = some log) (hkept : log'.currentHash = log.currentHash) :
    ((s.tamper i log').verifyIntegrity sum256).valid = false ↔
      hashText log' ≠ hashText log ∨ log'.previousHash ≠ log.previousHash ∨
        (log'.eventID ≠ log.eventID ∧ readable = true ∧ log ∈ s.stored) := by
  have hsound : Sound sum256 s := by
    rw [hs]
    exact (sound_newSystem hchain hnew).run
  have hreadable : s.readable = readable := by
    rw [hs, readable_run, newSystem_eq hnew]
  have hmemory : (verifyLogChainStrict sum256 (s.logger.logs.set i log') (str "memory")).valid =
      true ↔ hashText log' = hashText log ∧ log'.previousHash = log.previousHash :=
    verifyLogChainStrict_valid_iff.trans (hsound.intact_set_iff hsum hlog hkept)
  by_cases hvalid :
      (verifyLogChainStrict sum256 (s.logger.logs.set i log') (str "memory")).valid = true
  · obtain ⟨htext, hprev⟩ := hmemory.mp hvalid
    have hlinked := (verifyLogChainStrict_valid_iff.mp hvalid).2
    rw [verifyIntegrity_tamper_of_valid hvalid, hreadable]
    cases readable with
    | false => simp [hvalid, htext, hprev]
    | true =>
      by_cases hwriter : log'.eventID ≠ log.eventID ∧ log ∈ s.stored
      · have hunknown : log.eventID ∉ (s.logger.logs.set i log').map AuditLog.eventID :=
          hsound.eventID_notMem_set hlog hwriter.1
        simp [verify_invalid_of_unknown hwriter.2 hunknown, hwriter]
      · have hmirrors := hsound.mirrors_set hlog hkept htext hprev
          fun hid hmem => hwriter ⟨hid, hmem⟩
        have hset : (verifyLogSetConsistency sum256 s.stored (s.logger.logs.set i log')
            false).valid = true := hmirrors.verify_valid hlinked hsound.hashed_stored nofun
        simp [hset, htext, hprev]
        tauto
  · rw [verifyIntegrity_tamper_of_invalid hvalid]
    tauto

def deletion : Event :=
  .log (some ⟨str "alice", 3, str "doc1", str "doc", 0, str "1|2", str "x", []⟩)
    1700000000000000000 1700000000000000001

/-- The record of `deletion`, with the fields of the request that sent it. -/
def deletionLog (sourceIP userAgent detail currentHash : Str) : AuditLog :=
  ⟨str "audit-1700000000000000000-1", 1700000000000000001, str "alice", 3, str "DELETE",
    str "doc1", str "doc", 0, sourceIP, userAgent, detail, [], currentHash⟩

def deletionHash : Str :=
  [0x1c, 0x62, 0x07, 0x20, 0xd1, 0x6c, 0x63, 0x5f, 0xa1, 0x47, 0x9f, 0x05, 0xbc, 0xd8, 0x42, 0xfa,
    0x09, 0x16, 0x2e, 0x84, 0xb6, 0x3b, 0xdd, 0xf6, 0xb8, 0x47, 0xbd, 0x11, 0x9c, 0x86, 0x49, 0x53]

/-- An injective function that gives what SHA-256 gives for the text of that record. -/
def deletionSum (text : Str) : Str :=
  if text = hashText (deletionLog (str "1|2") (str "x") [] []) then deletionHash
  else replicate 33 0 ++ text

theorem deletionSum_injective : Function.Injective deletionSum := by
  have hlength : deletionHash.length = 32 := by decide
  have hne : ∀ text, deletionHash ≠ replicate 33 0 ++ text := by
    intro text h
    have := congrArg length h
    simp only [hlength, length_append, length_replicate] at this
    omega
  intro s t h
  unfold deletionSum at h
  split at h
  · split at h
    next hs ht => exact hs.trans ht.symm
    next => exact absurd h (hne t)
  · split at h
    next => exact absurd h.symm (hne s)
    next => exact append_cancel_left h

def defaultConfig : Config := ⟨3, 50000000, 1024, 1, true⟩

/-- A detail that is added afterwards is found. -/
theorem verifyIntegrity_detects_detail :
    ((System.run deletionSum ⟨⟨defaultConfig, [], [], 0, false, false⟩, [], true, []⟩
      [.start, deletion, .write 0]).tamper 0
        (deletionLog (str "1|2") (str "x") (str "y") (encodeToString deletionHash))
      |>.verifyIntegrity deletionSum).valid = false :=
  (verifyIntegrity_detects_iff deletionSum deletionSum_injective defaultConfig rfl true _ _ rfl
    [.start, deletion, .write 0] rfl 0
    (deletionLog (str "1|2") (str "x") [] (encodeToString deletionHash))
    (deletionLog (str "1|2") (str "x") (str "y") (encodeToString deletionHash))
    (by decide) rfl).mpr (Or.inl (by decide))

/-- The source address and the user agent may change when the separator moves between them. -/
theorem not_verifyIntegrity_detects_separator :
    let s := System.run deletionSum ⟨⟨defaultConfig, [], [], 0, false, false⟩, [], true, []⟩
      [.start, deletion, .write 0]
    let log := deletionLog (str "1|2") (str "x") [] (encodeToString deletionHash)
    let log' := deletionLog (str "1") (str "2|x") [] (encodeToString deletionHash)
    Function.Injective deletionSum ∧ s.logger.logs = [log] ∧ log'.sourceIP ≠ log.sourceIP ∧
      log'.userAgent ≠ log.userAgent ∧
      ((s.tamper 0 log').verifyIntegrity deletionSum).valid = true := by
  exact ⟨deletionSum_injective, by decide, by decide, by decide, by decide⟩

end Solocoder.Audit
