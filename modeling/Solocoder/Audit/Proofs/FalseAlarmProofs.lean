import Solocoder.Audit.Proofs.TamperProofs

/-!
# No false alarm

A writer that never fails, such as `MemoryWriter`, loses no record.
-/

namespace Solocoder.Audit

open List

variable {sum256 : Str → Str} {s : System}

theorem Sound.verify_valid (h : Sound sum256 s) {strictCount : Bool}
    (hcount : strictCount = true → s.stored.length = s.logger.logs.length) :
    (s.logger.verifyIntegrityLocked sum256 (some s.stored) strictCount).valid = true := by
  have hmemory : (verifyLogChainStrict sum256 s.logger.logs (str "memory")).valid = true :=
    verifyLogChainStrict_valid_iff.mpr ⟨h.hashed, h.linked⟩
  unfold Logger.verifyIntegrityLocked
  dsimp only
  rw [hmemory]
  exact h.mirrors.verify_valid h.linked h.hashed_stored hcount

theorem Sound.length_step (h : Sound sum256 s) {e : Event} (he : ∀ i, e ≠ .drop i)
    (hlength : s.pending.length + s.stored.length = s.logger.logs.length) :
    (s.step sum256 e).pending.length + (s.step sum256 e).stored.length =
      (s.step sum256 e).logger.logs.length := by
  cases e with
  | start =>
    unfold System.step
    dsimp only
    split <;> exact hlength
  | stop => exact hlength
  | log entry now timestamp =>
    cases entry with
    | none => exact hlength
    | some entry =>
      unfold System.step
      dsimp only
      split
      · exact hlength
      · rw [h.create_eq]
        simp only [length_append, length_singleton]
        omega
  | write i =>
    unfold System.step
    dsimp only
    split
    next log hlog =>
      obtain ⟨hi, -⟩ := List.getElem?_eq_some_iff.mp hlog
      simp only [length_append, length_singleton, length_eraseIdx_of_lt hi]
      omega
    · exact hlength
  | drop i => exact absurd rfl (he i)

theorem Sound.length_run {events : List Event} (h : Sound sum256 s)
    (hdrop : ∀ i, Event.drop i ∉ events)
    (hlength : s.pending.length + s.stored.length = s.logger.logs.length) :
    (s.run sum256 events).pending.length + (s.run sum256 events).stored.length =
      (s.run sum256 events).logger.logs.length := by
  induction events generalizing s with
  | nil => exact hlength
  | cons e events ih =>
    refine ih (h.step e) (fun i hi => hdrop i (mem_cons_of_mem e hi)) (h.length_step ?_ hlength)
    rintro i rfl
    exact hdrop i mem_cons_self

/-- Verification accepts whatever the writer has taken so far, in any order, and strict verification
accepts it once it is all. -/
theorem verifyIntegrity_never_alarms (sum256 : Str → Str) (cfg : Config)
    (hchain : cfg.enableHashChain = true) (s₀ s : System) (hnew : newSystem cfg true = .ok s₀)
    (events : List Event) (hdrop : ∀ i, Event.drop i ∉ events) (hs : s = s₀.run sum256 events) :
    (s.verifyIntegrity sum256).valid = true ∧
      (s.pending = [] → (s.verifyIntegrityStrict sum256).valid = true) := by
  have hsound0 : Sound sum256 s₀ := sound_newSystem hchain hnew
  have hsound : Sound sum256 s := hs ▸ hsound0.run
  have hreadable : s.readable = true := by
    rw [hs, readable_run, newSystem_eq hnew]
  have hlength : s.pending.length + s.stored.length = s.logger.logs.length := by
    rw [hs]
    refine hsound0.length_run hdrop ?_
    rw [newSystem_eq hnew]
    rfl
  unfold System.verifyIntegrity System.verifyIntegrityStrict
  rw [if_pos hreadable]
  refine ⟨hsound.verify_valid nofun, fun hpending => hsound.verify_valid fun _ => ?_⟩
  rw [hpending, length_nil, Nat.zero_add] at hlength
  exact hlength

theorem verifyIntegrity_never_alarms_deletion :
    let s := System.run deletionSum ⟨⟨defaultConfig, [], [], 0, false, false⟩, [], true, []⟩
      [.start, deletion, deletion, .write 1, .write 0]
    (s.verifyIntegrity deletionSum).valid = true ∧
      (s.pending = [] → (s.verifyIntegrityStrict deletionSum).valid = true) :=
  verifyIntegrity_never_alarms deletionSum defaultConfig rfl _ _ rfl _ (by simp [deletion]) rfl

end Solocoder.Audit
