import Solocoder.Lib.HashChain
import Solocoder.Audit.Logger
import Mathlib.Data.List.Nodup
import Mathlib.Data.List.Perm.Subperm

/-!
# What verification accepts

`verifyLogChainStrict` accepts exactly the chains of records with their own hash, and
`verifyLogSetConsistency` a writer with copies of different records of such a chain.
-/

namespace Solocoder.Audit

open List AuditLog

open Lib (Linked)

variable {sum256 : Str → Str}

def Alarm (o : Option VerificationResult) : Prop := ∀ r, o = some r → r.valid = false

theorem Alarm.valid_getD_iff {o : Option VerificationResult} (h : Alarm o)
    {r : VerificationResult} (hr : r.valid = true) : (o.getD r).valid = true ↔ o = none := by
  cases o with
  | none => simpa using hr
  | some r' => simp [h r' rfl]

theorem alarm_none : Alarm none := fun _ h => nomatch h

theorem alarm_tampered (i : Int) (message : Str) :
    Alarm (some (VerificationResult.tampered i message)) := by
  intro r h
  cases h
  rfl

theorem alarm_checkChain (label : Str) (i : Nat) (prev : Option AuditLog) (logs : List AuditLog) :
    Alarm (checkChain sum256 label i prev logs) := by
  fun_induction checkChain sum256 label i prev logs with
  | case1 => exact alarm_none
  | case2 | case3 => exact alarm_tampered _ _
  | case4 => assumption

def Hashed (sum256 : Str → Str) (logs : List AuditLog) : Prop :=
  ∀ log ∈ logs, log.currentHash = computeHash sum256 log

def Intact (sum256 : Str → Str) (logs : List AuditLog) : Prop :=
  Hashed sum256 logs ∧ Linked previousHash currentHash [] logs

variable {logs memLogs writerLogs : List AuditLog} {i : Nat}

theorem hashed_cons {log : AuditLog} : Hashed sum256 (log :: logs) ↔
      log.currentHash = computeHash sum256 log ∧ Hashed sum256 logs := by
  unfold Hashed
  exact forall_mem_cons

theorem checkChain_some_eq_none_iff {label : Str} {prev : AuditLog} :
    checkChain sum256 label i (some prev) logs = none ↔ Hashed sum256 logs ∧
        Linked previousHash currentHash prev.currentHash logs := by
  induction logs generalizing i prev with
  | nil => exact ⟨fun _ => ⟨forall_mem_nil _, trivial⟩, fun _ => rfl⟩
  | cons log logs ih =>
    unfold checkChain
    rw [hashed_cons, Linked]
    by_cases hhash : log.currentHash = computeHash sum256 log
    · rw [if_neg (not_not_intro hhash)]
      by_cases hprev : log.previousHash = prev.currentHash
      · rw [if_neg (by simpa using hprev), ih]
        tauto
      · rw [if_pos (by simpa using hprev)]
        simp [hprev]
    · rw [if_pos hhash]
      simp [hhash]

theorem verifyLogChainStrict_valid_iff {label : Str} :
    (verifyLogChainStrict sum256 logs label).valid = true ↔ Intact sum256 logs := by
  unfold Intact
  cases logs with
  | nil => exact ⟨fun _ => ⟨forall_mem_nil _, trivial⟩, fun _ => rfl⟩
  | cons log logs =>
    unfold verifyLogChainStrict
    dsimp only
    rw [hashed_cons, Linked]
    by_cases hprev : log.previousHash = []
    · rw [if_neg (not_not_intro hprev), (alarm_checkChain _ _ _ _).valid_getD_iff rfl]
      unfold checkChain
      by_cases hhash : log.currentHash = computeHash sum256 log
      · rw [if_neg (not_not_intro hhash), if_neg (by simp), checkChain_some_eq_none_iff]
        tauto
      · rw [if_pos hhash]
        simp [hhash]
    · rw [if_pos hprev]
      simp [VerificationResult.tampered, hprev]

theorem byEvent_isNone_iff {id : Str} :
    (byEvent logs id).isNone = true ↔ id ∉ logs.map AuditLog.eventID := by
  unfold byEvent
  simp [find?_eq_none]

theorem byEvent_spec {id : Str} {log : AuditLog} (h : byEvent logs id = some log) :
    log ∈ logs ∧ log.eventID = id := by
  unfold byEvent at h
  exact ⟨mem_reverse.mp (mem_of_find?_eq_some h), by simpa using find?_some h⟩

theorem alarm_checkKnown (memLogs seen writerLogs : List AuditLog) :
    Alarm (checkKnown memLogs seen writerLogs) := by
  fun_induction checkKnown memLogs seen writerLogs with
  | case1 => exact alarm_none
  | case2 | case3 => exact alarm_tampered _ _
  | case4 => assumption

theorem known_of_checkKnown {seen : List AuditLog} (h : checkKnown memLogs seen writerLogs = none) :
    ∀ wl ∈ writerLogs, wl.eventID ∈ memLogs.map AuditLog.eventID := by
  fun_induction checkKnown memLogs seen writerLogs with
  | case1 => exact forall_mem_nil _
  | case2 | case3 => cases h
  | case4 seen wl writerLogs _ hknown ih =>
    rw [byEvent_isNone_iff, not_not] at hknown
    exact forall_mem_cons.mpr ⟨hknown, ih h⟩

theorem checkKnown_eq_none {seen : List AuditLog}
    (hknown : ∀ wl ∈ writerLogs, wl.eventID ∈ memLogs.map AuditLog.eventID)
    (hnodup : ((seen ++ writerLogs).map AuditLog.eventID).Nodup) :
    checkKnown memLogs seen writerLogs = none := by
  induction writerLogs generalizing seen with
  | nil => rfl
  | cons wl writerLogs ih =>
    rw [forall_mem_cons] at hknown
    have hnew : wl.eventID ∉ seen.map AuditLog.eventID := by
      rw [map_append, map_cons] at hnodup
      exact fun h => (nodup_append.mp hnodup).2.2 _ h _ mem_cons_self rfl
    unfold checkKnown
    rw [if_neg hnew, if_neg (by rw [byEvent_isNone_iff]; exact not_not_intro hknown.1)]
    exact ih hknown.2 (by rwa [append_assoc])

theorem checkSorted_eq_none {prev : AuditLog} {sorted : List AuditLog}
    (h : Linked previousHash currentHash prev.currentHash sorted) :
    checkSorted writerLogs i prev sorted = none := by
  induction sorted generalizing i prev with
  | nil => rfl
  | cons curr sorted ih =>
    unfold checkSorted
    rw [if_neg (not_not_intro h.1)]
    exact ih h.2

theorem checkHashes_eq_none
    (h : ∀ wl ∈ writerLogs, ∀ ml, byEvent memLogs wl.eventID = some ml → ml.currentHash =
      wl.currentHash) : checkHashes memLogs i writerLogs = none := by
  induction writerLogs generalizing i with
  | nil => rfl
  | cons wl writerLogs ih =>
    rw [forall_mem_cons] at h
    unfold checkHashes
    rw [if_neg, ih h.2]
    cases hml : byEvent memLogs wl.eventID with
    | none => simp
    | some ml => simpa using h.1 ml hml

theorem checkSelf_eq_none (h : Hashed sum256 writerLogs) :
    checkSelf sum256 i writerLogs = none := by
  induction writerLogs generalizing i with
  | nil => rfl
  | cons wl writerLogs ih =>
    obtain ⟨hhash, h⟩ := hashed_cons.mp h
    unfold checkSelf
    rw [if_neg (not_not_intro hhash)]
    exact ih h

/-- The records of the writer are copies of different records in memory, as far as the chain
goes. -/
structure Mirrors (writerLogs memLogs : List AuditLog) : Prop where
  nodup : (writerLogs.map AuditLog.eventID).Nodup
  nodup_mem : (memLogs.map AuditLog.eventID).Nodup
  copied : ∀ wl ∈ writerLogs, ∃ ml ∈ memLogs, ml.eventID = wl.eventID ∧
    ml.previousHash = wl.previousHash ∧ ml.currentHash = wl.currentHash

theorem Mirrors.eq_hashes (h : Mirrors writerLogs memLogs) {wl ml : AuditLog}
    (hwl : wl ∈ writerLogs) (hml : ml ∈ memLogs) (hid : ml.eventID = wl.eventID) :
    ml.previousHash = wl.previousHash ∧ ml.currentHash = wl.currentHash := by
  obtain ⟨ml', hml', hid', hhashes⟩ := h.copied wl hwl
  rw [inj_on_of_nodup_map h.nodup_mem hml hml' (hid.trans hid'.symm)]
  exact hhashes

theorem Mirrors.mem_writer (h : Mirrors writerLogs memLogs)
    (hlength : writerLogs.length = memLogs.length) {ml : AuditLog} (hml : ml ∈ memLogs) :
    ml.eventID ∈ writerLogs.map AuditLog.eventID := by
  have hsubset : writerLogs.map AuditLog.eventID ⊆ memLogs.map AuditLog.eventID := by
    intro id hid
    obtain ⟨wl, hwl, rfl⟩ := List.mem_map.mp hid
    obtain ⟨ml, hml, hid, -⟩ := h.copied wl hwl
    exact List.mem_map.mpr ⟨ml, hml, hid⟩
  have hperm := (subperm_of_subset h.nodup hsubset).perm_of_length_le (by simp [hlength])
  exact hperm.mem_iff.mpr (List.mem_map_of_mem hml)

theorem map_filterMap_eq_map {α β γ : Type*} {f : α → Option β} {g : β → γ} {g' : α → γ}
    {l : List α} (h : ∀ a ∈ l, ∃ b, f a = some b ∧ g b = g' a) :
    (l.filterMap f).map g = l.map g' := by
  induction l with
  | nil => rfl
  | cons a l ih =>
    obtain ⟨b, hb, hg⟩ := h a mem_cons_self
    rw [filterMap_cons_some hb, map_cons, map_cons, hg, ih fun c hc => h c (mem_cons_of_mem a hc)]

theorem Mirrors.checkSynced_eq_none (h : Mirrors writerLogs memLogs)
    (hlength : writerLogs.length = memLogs.length)
    (hlinked : Linked previousHash currentHash [] memLogs) :
    checkSynced writerLogs memLogs = none := by
  -- the records of the writer in the order of memory form the same chain
  have hfound : ∀ ml ∈ memLogs, ∃ wl, byEvent writerLogs ml.eventID = some wl ∧
      wl.previousHash = ml.previousHash ∧ wl.currentHash = ml.currentHash := by
    intro ml hml
    cases hwl : byEvent writerLogs ml.eventID with
    | none =>
      exact absurd (h.mem_writer hlength hml) (byEvent_isNone_iff.mp (by rw [hwl]; rfl))
    | some wl =>
      obtain ⟨hmem, hid⟩ := byEvent_spec hwl
      obtain ⟨hprev, hcur⟩ := h.eq_hashes hmem hml hid.symm
      exact ⟨wl, rfl, hprev.symm, hcur.symm⟩
  have hsorted := hlinked.congr
    (map_filterMap_eq_map fun ml hml => (hfound ml hml).imp fun wl h => ⟨h.1, h.2.1⟩)
    (map_filterMap_eq_map fun ml hml => (hfound ml hml).imp fun wl h => ⟨h.1, h.2.2⟩)
  unfold checkSynced
  split
  · rfl
  next first sorted heq =>
    rw [heq] at hsorted
    rw [if_neg (not_not_intro hsorted.1)]
    exact checkSorted_eq_none hsorted.2

variable {strictCount : Bool}

theorem checkCount_valid {writerCount memCount : Nat}
    (h : strictCount = true → writerCount = memCount) :
    (checkCount writerCount memCount strictCount).valid = true := by
  unfold checkCount
  rw [if_neg fun hc => hc.2 (h hc.1)]
  split <;> rfl

theorem Mirrors.verify_valid (h : Mirrors writerLogs memLogs)
    (hlinked : Linked previousHash currentHash [] memLogs) (hhashed : Hashed sum256 writerLogs)
    (hcount : strictCount = true → writerLogs.length = memLogs.length) :
    (verifyLogSetConsistency sum256 writerLogs memLogs strictCount).valid = true := by
  have hknown : checkKnown memLogs [] writerLogs = none := by
    refine checkKnown_eq_none (fun wl hwl => ?_) h.nodup
    obtain ⟨ml, hml, hid, -⟩ := h.copied wl hwl
    exact mem_map.mpr ⟨ml, hml, hid⟩
  have hsynced : (if writerLogs.length = memLogs.length then checkSynced writerLogs memLogs
      else none) = none := by
    split
    next hlength => exact h.checkSynced_eq_none hlength hlinked
    · rfl
  have hhashes : checkHashes memLogs 0 writerLogs = none := by
    refine checkHashes_eq_none fun wl hwl ml hml => ?_
    obtain ⟨hmem, hid⟩ := byEvent_spec hml
    exact (h.eq_hashes hwl hmem hid).2
  unfold verifyLogSetConsistency
  split
  · rfl
  · rw [hknown, hsynced, hhashes, checkSelf_eq_none hhashed]
    exact checkCount_valid hcount

theorem verify_invalid_of_unknown {wl : AuditLog} (hwl : wl ∈ writerLogs)
    (hid : wl.eventID ∉ memLogs.map AuditLog.eventID) :
    (verifyLogSetConsistency sum256 writerLogs memLogs strictCount).valid = false := by
  unfold verifyLogSetConsistency
  rw [if_neg fun h => by rw [h.1] at hwl; cases hwl]
  cases hknown : checkKnown memLogs [] writerLogs with
  | none => exact absurd (known_of_checkKnown hknown wl hwl) hid
  | some r => exact alarm_checkKnown _ _ _ r hknown

end Solocoder.Audit
