import Solocoder.WAL.Proofs.FilesProofs

/-!
# Runs of the log

Without torn writes the files hold the acknowledged entries, numbered from zero, as long as `New`
never finds an empty last file behind files with entries: it takes the next offset from the last
file only.
-/

namespace Solocoder.Wal

open List Ledger Filed

def Numbered (es : List Entry) : Prop :=
  es.map Entry.offset = (range es.length).map fun i : Nat => (i : Int)

variable {es acked : List Entry} {e : Entry} {f : Filed} {l : Ledger} {s : System}

theorem Numbered.concat (h : Numbered es) (he : e.offset = es.length) : Numbered (es ++ [e]) := by
  rw [Numbered, map_append, h]
  simp [range_succ, he]

theorem Numbered.offset_getElem (h : Numbered es) {i : Nat} (hi : i < es.length) :
    es[i].offset = i := by
  have := congrArg (fun l => l[i]?) h
  simp only [getElem?_map, getElem?_eq_getElem hi, getElem?_range hi, Option.map_some] at this
  exact Option.some.inj this

theorem Numbered.ascending (h : Numbered es) : Ascending es := by
  refine pairwise_iff_getElem.2 fun i j hi hj hij => ?_
  rw [h.offset_getElem hi, h.offset_getElem hj]
  exact_mod_cast hij

theorem Numbered.bounds (h : Numbered es) (he : e ∈ es) : 0 ≤ e.offset ∧ e.offset < es.length := by
  obtain ⟨i, hi, rfl⟩ := getElem_of_mem he
  rw [h.offset_getElem hi]
  omega

theorem Numbered.last {fs : List Entry} (h : Numbered (es ++ fs)) (hne : fs ≠ []) :
    lastOffset fs + 1 = (es ++ fs).length := by
  rcases eq_nil_or_concat fs with rfl | ⟨init, last, rfl⟩
  · exact absurd rfl hne
  · rw [concat_eq_append] at h ⊢
    have hi : (es ++ init).length < (es ++ (init ++ [last])).length := by simp
    have := h.offset_getElem hi
    have hlast : (es ++ (init ++ [last]))[(es ++ init).length] = last := by
      simp
    rw [hlast] at this
    rw [lastOffset_concat, this]
    simp
    omega

/-- No file has torn bytes, and the entries are numbered. -/
structure Ledger.Sound (l : Ledger) : Prop where
  ok : l.Ok
  clean : ∀ f ∈ l.files, f.torn = []
  numbered : Numbered l.log

/-- The entries fit the length field of a record, and the counter of the offsets has not wrapped. -/
structure Ledger.Encodable (l : Ledger) : Prop where
  length : l.log.length < 2 ^ 63
  dataLen : ∀ e ∈ l.log, e.data.length < 2 ^ 32

theorem Filed.content_of_clean (h : f.torn = []) : f.content = encodeAll f.held := by
  rw [content, h, held, encodeAll_append, nil_append]

theorem mem_entries {fs : List Filed} (hf : f ∈ fs) (he : e ∈ f.held) :
    e ∈ entries fs := mem_flatMap.2 ⟨f, hf, he⟩

theorem Ledger.Encodable.entry (h : l.Encodable) (hn : Numbered l.log) (he : e ∈ l.log) :
    e.Encodable := by
  have hb := hn.bounds he
  have hl := h.length
  exact ⟨by omega, by omega, h.dataLen e he⟩

theorem Ledger.Sound.congr {l' : Ledger} (h : l.Sound) (hf : l'.files = l.files) : l'.Sound where
  ok := h.ok.congr hf
  clean := hf ▸ h.clean
  numbered := by
    rw [log, hf]
    exact h.numbered

theorem Ledger.Sound.rotate (h : l.Sound) : l.rotate.Sound where
  ok := h.ok.rotate
  clean := forall_mem_append.2 ⟨h.clean, forall_mem_singleton.2 rfl⟩
  numbered := by
    rw [log_rotate]
    exact h.numbered

theorem Ledger.Sound.write (h : l.Sound) (he : e.offset = l.log.length) : (l.write e).Sound where
  ok := h.ok.write (by omega)
  clean := by
    obtain ⟨holder, hactive⟩ := forall_mem_append.1 h.clean
    exact forall_mem_append.2 ⟨holder, forall_mem_singleton.2 (forall_mem_singleton.1 hactive :)⟩
  numbered := by
    rw [log_write]
    exact h.numbered.concat he

theorem Ledger.active_mem (l : Ledger) : l.active ∈ l.files :=
  mem_append_right _ (mem_singleton_self _)

theorem Ledger.Sound.readable_or (h : l.Sound) (he : l.Encodable) (hf : f ∈ l.files) :
    f.Readable ∨ outcome (scan f.content) = .error .bufferFull := by
  rw [Filed.Readable, content_of_clean (h.clean f hf)]
  exact outcome_encodable fun e hmem => he.entry h.numbered (mem_entries hf hmem)

def Ledger.LastHolds (l : Ledger) : Prop := l.active.held = [] → l.log = []

theorem reopen_next (hn : Numbered l.log) (he : l.Encodable) (hlast : l.LastHolds) :
    l.reopen.next = l.log.length := by
  have hlen := he.length
  show offsetAfter (lastOffset l.active.held) = _
  by_cases hne : l.active.held = []
  · rw [hne, hlast hne]
    rfl
  · rw [log_eq] at hn hlen ⊢
    have hnum := hn.last hne
    have hpos : 0 < (entries l.older ++ l.active.held).length :=
      length_pos_of_ne_nil (by simp [hne])
    rw [offsetAfter, if_pos (by omega), hnum, int64_of_bounds (by omega) (by omega)]

/-- The content of the last file. -/
def lastContent (d : Disk) : Bytes := (d.getLast?.map Prod.snd).getD []

/-- The data fits its length field, the counter of the offsets is not at its end, and `New` finds no
empty last file behind others with records. -/
def KeepsOffsets (s : System) : Op → Prop
  | .append _ data _ => data.length < 2 ^ 32 ∧ ∀ w ∈ s.wal, w.nextOffset < 2 ^ 63 - 1
  | .close => True
  | .new => lastContent s.disk = [] → ∀ f ∈ s.disk, f.2 = []

instance (s : System) : (op : Op) → Decidable (KeepsOffsets s op)
  | .append _ data _ =>
    inferInstanceAs (Decidable (data.length < 2 ^ 32 ∧ ∀ w ∈ s.wal, w.nextOffset < 2 ^ 63 - 1))
  | .close => .isTrue trivial
  | .new => inferInstanceAs (Decidable (lastContent s.disk = [] → ∀ f ∈ s.disk, f.2 = []))

/-- `P` holds at every step of the run. -/
def Throughout (config : Option Config) (P : System → Op → Prop) : System → List Op → Prop
  | _, [] => True
  | s, op :: ops => P s op ∧ Throughout config P (s.step config op).1 ops

instance Throughout.decidable (config : Option Config) (P : System → Op → Prop)
    [∀ s op, Decidable (P s op)] : (s : System) → (ops : List Op) →
      Decidable (Throughout config P s ops)
  | _, [] => .isTrue trivial
  | s, op :: ops =>
    have := Throughout.decidable config P (s.step config op).1 ops
    inferInstanceAs (Decidable (P s op ∧ Throughout config P (s.step config op).1 ops))

/-- The operation leaves no part of an entry. -/
def Op.Traceless : Op → Prop
  | .append _ _ fault => Wal.Traceless fault
  | _ => True

/-- Without torn writes the directory is empty, or the files hold the acknowledged entries and the
log, if it could be opened, goes on behind them. -/
inductive Tracks (s : System) (acked : List Entry) : Prop where
  | start (disk : s.disk = []) (wal : s.wal = none) (acked : acked = [])
  | opened (l : Ledger) (sound : l.Sound) (encodable : l.Encodable) (disk : s.disk = l.disk)
      (log : l.log = acked)
      (wal : ∀ w ∈ s.wal, ∃ c, w = l.wal c ∧ l.next = l.log.length)

theorem Tracks.ascending (h : Tracks s acked) : Ascending acked := by
  cases h with
  | start _ _ hacked =>
    rw [hacked]
    exact .nil
  | opened l sound _ _ log _ => exact log ▸ sound.numbered.ascending

theorem Appended.sound {l' : Ledger} {opType : OpType} {data : Bytes} {r : Except Err Int}
    (h : Appended ⟨l.next, opType, data⟩ l l' r) (hs : l.Sound) (he : l.Encodable)
    (hnext : l.next = l.log.length) (hlt : l.next < 2 ^ 63 - 1) (hdata : data.length < 2 ^ 32) :
    l'.Sound ∧ l'.Encodable ∧ l'.next = l'.log.length ∧ ((∃ err, r = .error err ∧ l'.log = l.log) ∨
        (r = .ok l.next ∧ l'.log = l.log ++ [⟨l.next, opType, data⟩])) := by
  have hwritten {m : Ledger} (hlog : m.log = l.log ++ [⟨l.next, opType, data⟩])
      (hm : m.next = int64 (l.next + 1)) : m.Encodable ∧ m.next = m.log.length := by
    have hlen : m.log.length = l.log.length + 1 := by simp [hlog]
    refine ⟨⟨by omega, ?_⟩, ?_⟩
    · rw [hlog]
      exact forall_mem_append.2 ⟨he.dataLen, forall_mem_singleton.2 hdata⟩
    · rw [hm, int64_of_bounds (by omega) (by omega)]
      omega
  have hrotated : l.rotate.Encodable := by
    refine ⟨?_, ?_⟩ <;> rw [log_rotate]
    · exact he.length
    · exact he.dataLen
  cases h with
  | failed hd err => exact ⟨hs.congr rfl, ⟨he.length, he.dataLen⟩, hnext, .inl ⟨err, rfl, rfl⟩⟩
  | failedRotated err =>
    refine ⟨hs.rotate, hrotated, ?_, .inl ⟨err, rfl, l.log_rotate⟩⟩
    rw [log_rotate]
    exact hnext
  | wrote =>
    obtain ⟨he', hn'⟩ := hwritten (m := l.write ⟨l.next, opType, data⟩) (l.log_write _) rfl
    exact ⟨hs.write hnext, he', hn', .inr ⟨rfl, l.log_write _⟩⟩
  | wroteRotated =>
    have hlog : (l.rotate.write ⟨l.next, opType, data⟩).log = l.log ++ [⟨l.next, opType, data⟩] := by
      rw [log_write, log_rotate]
    obtain ⟨he', hn'⟩ := hwritten hlog rfl
    exact ⟨hs.rotate.write (by rw [log_rotate]; exact hnext), he', hn', .inr ⟨rfl, hlog⟩⟩

theorem lastContent_disk (l : Ledger) : lastContent l.disk = l.active.content := by
  simp [lastContent, disk, files, file]

variable (config : Option Config)

theorem newWAL_sound (hs : l.Sound) (he : l.Encodable) :
    (∃ err, newWAL config l.disk = .error err) ∨
      ∃ c, newWAL config l.disk = .ok (l.reopen.wal c, l.reopen.disk) := by
  by_cases hr : ∀ f ∈ l.files, f.Readable
  · cases hc : Config.checked config with
    | error err =>
      left
      exact ⟨err, by rw [newWAL, hc]⟩
    | ok c => exact .inr ⟨c, newWAL_ledger hc hs.ok hr⟩
  · left
    push Not at hr
    obtain ⟨f, hf, hn⟩ := hr
    exact newWAL_unreadable hs.ok hf ((hs.readable_or he hf).resolve_left hn)

theorem Ledger.init_sound : Ledger.init.Sound := by
  refine ⟨init_ok, fun f hf => ?_, rfl⟩
  rw [mem_singleton.1 hf]
  rfl

theorem Tracks.new {config : Option Config} (h : Tracks s acked) (hk : KeepsOffsets s .new) :
    Tracks (s.step config .new).1 acked := by
  rw [System.step]
  cases h with
  | start disk wal hacked =>
    rw [disk]
    cases hc : Config.checked config with
    | error err =>
      rw [newWAL, hc]
      exact .start rfl rfl hacked
    | ok c =>
      rw [newWAL_init hc]
      refine .opened .init init_sound ⟨by decide, fun e he => by cases he⟩ rfl hacked.symm ?_
      rintro w ⟨⟩
      exact ⟨c, rfl, rfl⟩
  | opened l sound enc disk log wal =>
    rcases newWAL_sound config sound enc with ⟨err, heq⟩ | ⟨c, heq⟩
    · rw [disk, heq]
      exact .opened l sound enc rfl log fun w hw => by cases hw
    · rw [disk, heq]
      refine .opened l.reopen (sound.congr rfl) ⟨enc.length, enc.dataLen⟩ rfl log ?_
      rintro w ⟨⟩
      refine ⟨c, rfl, reopen_next sound.numbered enc fun hheld => ?_⟩
      have hlast : lastContent s.disk = [] := by
        rw [disk, lastContent_disk, content_of_clean (sound.clean _ l.active_mem), hheld]
        rfl
      rw [Ledger.log, entries, flatMap_eq_nil_iff]
      intro f hf
      have hnil : f.content = [] := hk hlast f.file (by rw [disk]; exact mem_map_of_mem hf)
      rw [content_of_clean (sound.clean f hf)] at hnil
      by_contra hne
      have := length_encodeAll_of_ne_nil hne
      rw [hnil] at this
      cases this

theorem step_append {w w' : WAL} {d' : Disk} {opType : OpType}
    {data : Bytes} {fault : Option Fault} {r : Except Err Int} (hw : s.wal = some w)
    (heq : append w s.disk opType data fault = (w', d', r)) :
    s.step config (.append opType data fault) =
      (⟨d', some w'⟩, r.toOption.map fun offset => ⟨offset, opType, data⟩) := by
  simp only [System.step, hw, heq]
  cases r <;> rfl

theorem close_ledger (c : Config) (l : Ledger) :
    ∃ hd, close (l.wal c) = ({ l with handle := hd, closed := true } : Ledger).wal c := by
  have holder : (l.wal c).older.map (fun seg => { seg with file := .nil }) = (l.wal c).older := by
    show (l.older.map _).map _ = l.older.map _
    rw [map_map]
    rfl
  rw [close]
  split_ifs with h
  · refine ⟨l.handle, ?_⟩
    have hc : l.closed = true := h
    rw [← hc]
  · rw [holder]
    exact ⟨.nil, rfl⟩

theorem Tracks.step {op : Op} (h : Tracks s acked) (config : Option Config) (hk : KeepsOffsets s op)
    (ht : op.Traceless) : Tracks (s.step config op).1 (acked ++ (s.step config op).2.toList) := by
  cases op with
  | new =>
    have hnone : (s.step config .new).2.toList = [] := by
      rw [System.step]
      split <;> rfl
    rw [hnone, append_nil]
    exact h.new hk
  | close =>
    rw [System.step, Option.toList_none, append_nil]
    cases h with
    | start disk wal hacked => exact .start disk (by simp [wal]) hacked
    | opened l sound enc disk log wal =>
      cases hw : s.wal with
      | none => exact .opened l sound enc disk log (by simp)
      | some w =>
        obtain ⟨c, rfl, hnext⟩ := wal w hw
        obtain ⟨hd, heq⟩ := close_ledger c l
        refine .opened { l with handle := hd, closed := true } (sound.congr rfl)
          ⟨enc.length, enc.dataLen⟩ disk log ?_
        rintro w' ⟨⟩
        exact ⟨c, heq, hnext⟩
  | append opType data fault =>
    cases h with
    | start disk wal hacked =>
      rw [System.step, wal]
      exact .start disk wal (by simp [hacked])
    | opened l sound enc disk log wal =>
      cases hw : s.wal with
      | none =>
        rw [System.step, hw]
        exact .opened l sound enc disk (by simp [log]) (by simp [hw])
      | some w =>
        obtain ⟨c, rfl, hnext⟩ := wal w hw
        obtain ⟨hdata, hlt⟩ := hk
        obtain ⟨l', r, heq, happ⟩ := append_cases c sound.ok ht opType data
        obtain ⟨sound', enc', hnext', hr⟩ := happ.sound sound enc hnext (hlt _ hw) hdata
        rw [step_append config hw (disk ▸ heq)]
        have hwal : ∀ w ∈ some (l'.wal c), ∃ c, w = l'.wal c ∧ l'.next = l'.log.length := by
          rintro w ⟨⟩
          exact ⟨c, rfl, hnext'⟩
        rcases hr with ⟨err, rfl, hlog⟩ | ⟨rfl, hlog⟩
        · exact .opened l' sound' enc' rfl (by simp [hlog, log, Except.toOption]) hwal
        · exact .opened l' sound' enc' rfl (by simp [hlog, log, Except.toOption]) hwal

theorem Tracks.run {config : Option Config} {ops : List Op} (h : Tracks s acked)
    (hk : Throughout config KeepsOffsets s ops) (ht : ∀ op ∈ ops, op.Traceless) :
    Tracks (s.run config ops).1 (acked ++ (s.run config ops).2) := by
  induction ops generalizing s acked with
  | nil =>
    rw [System.run, append_nil]
    exact h
  | cons op ops ih =>
    have hstep := h.step config hk.1 (ht op (mem_cons_self ..))
    have hrun := ih hstep hk.2 fun x hx => ht x (mem_cons_of_mem op hx)
    rw [append_assoc] at hrun
    exact hrun

/-- The offsets that `Append` returns ascend, whatever writes fail and however often the log is
reopened. -/
theorem append_offsets_ascend (config : Option Config) (ops : List Op)
    (ht : ∀ op ∈ ops, op.Traceless) (hk : Throughout config KeepsOffsets .init ops) :
    Ascending (System.init.run config ops).2 := by
  have h : Tracks System.init [] := .start rfl rfl rfl
  exact (h.run hk ht).ascending

def tinyConfig : Config := ⟨"wal", 25, false⟩

/-- A rotation whose write fails, repaired by a write before the log is reopened. -/
def repairedRun : List Op :=
  [.new, .append opPut [1] none, .append opPut [2] (some (.write 0)), .append opPut [3] none, .close,
    .new, .append opPut [4] none]

theorem append_offsets_ascend_repairedRun :
    (System.init.run (some tinyConfig) repairedRun).2.map Entry.offset = [0, 1, 2] ∧
      Ascending (System.init.run (some tinyConfig) repairedRun).2 :=
  ⟨by decide +kernel, append_offsets_ascend (some tinyConfig) repairedRun
    (by simp [repairedRun, Op.Traceless, Traceless, failedWrite]) (by decide +kernel)⟩

/-- A rotation whose write fails right before the log is reopened. -/
def brokenRun : List Op :=
  [.new, .append opPut [1] none, .append opPut [2] (some (.write 0)), .close, .new,
    .append opPut [3] none]

theorem append_offsets_repeat_in_brokenRun : (∀ op ∈ brokenRun, op.Traceless) ∧
      (System.init.run (some tinyConfig) brokenRun).2.map Entry.offset = [0, 0] ∧
      ¬ Ascending (System.init.run (some tinyConfig) brokenRun).2 := by
  have hoff : (System.init.run (some tinyConfig) brokenRun).2.map Entry.offset = [0, 0] := by
    decide +kernel
  refine ⟨by simp [brokenRun, Op.Traceless, Traceless, failedWrite], hoff, fun h => ?_⟩
  have hp : ((System.init.run (some tinyConfig) brokenRun).2.map Entry.offset).Pairwise (· < ·) :=
    pairwise_map.2 h
  rw [hoff] at hp
  simp at hp

end Solocoder.Wal
