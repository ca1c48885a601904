import Solocoder.WAL.Proofs.RunProofs

/-!
# Reading back what was appended

Without faults both readers find the appended entries from any offset on, exactly when every record
fits the window of the reader.
-/

namespace Solocoder.Wal

open List Ledger Config

/-- A call of a run without faults, or `Close` followed by `New`. -/
inductive Call where
  | append (opType : OpType) (data : Bytes)
  | reopen
  deriving DecidableEq, Repr

/-- The operations of a call. -/
def Call.ops : Call → List Op
  | append opType data => [.append opType data none]
  | reopen => [.close, .new]

/-- `Append` accepts its arguments: only a checkpoint may be empty. -/
def Call.Accepted : Call → Prop
  | append opType data => opType = opCheckpoint ∨ data ≠ []
  | reopen => True

/-- What the calls append. -/
def payloads : List Call → List (OpType × Bytes)
  | [] => []
  | .append opType data :: calls => (opType, data) :: payloads calls
  | .reopen :: calls => payloads calls

/-- The calls on a new log. -/
def runCalls (config : Option Config) (calls : List Call) : System × List Entry :=
  System.init.run config (.new :: calls.flatMap Call.ops)

/-- All entries are appended, and both readers return those from any offset on, without an error or
a warning. -/
def ReadsBack (config : Option Config) (calls : List Call) : Prop :=
  let r := runCalls config calls
  r.2.map (fun e => (e.type, e.data)) = payloads calls ∧ ∃ w, r.1.wal = some w ∧ ∀ s : Int, 0 ≤ s →
      readFrom w r.1.disk s = (r.2.filter fun e => s ≤ e.offset, none) ∧
      ∀ (σ : Type) (cb : RecoverCallback σ) (st : σ), recoverFrom w r.1.disk s (some cb) st =
          let called := callAll cb (r.2.filter fun e => s ≤ e.offset) st
          (called.1, [], called.2.map Err.callback)

theorem run_append (config : Option Config) (s : System) (ops ops' : List Op) :
    s.run config (ops ++ ops') = (((s.run config ops).1.run config ops').1,
        (s.run config ops).2 ++ ((s.run config ops).1.run config ops').2) := by
  induction ops generalizing s with
  | nil => rfl
  | cons op ops ih =>
    rw [cons_append, System.run, System.run, ih]
    simp

/-- The ledger of an open log: the entries are numbered and fit the window, and the next offset is
their number. -/
structure Ledger.Open (l : Ledger) : Prop where
  ok : l.Ok
  numbered : Numbered l.log
  encodable : l.Encodable
  next : l.next = l.log.length
  opened : l.handle = .opened
  notClosed : l.closed = false
  fits : ∀ e ∈ l.log, e.Fits

/-- The ledger of an open log after calls without faults. -/
structure Ledger.Session (l : Ledger) : Prop extends l.Open where
  clean : ∀ f ∈ l.files, f.torn = []
  lastHolds : l.LastHolds

theorem Ledger.Session.sound {l : Ledger} (h : l.Session) : l.Sound := ⟨h.ok, h.clean, h.numbered⟩

theorem Ledger.Session.init : init.Session where
  ok := init_ok
  numbered := init_sound.numbered
  encodable := ⟨by decide, fun e he => by cases he⟩
  next := rfl
  opened := rfl
  notClosed := rfl
  fits := fun e he => by cases he
  clean := init_sound.clean
  lastHolds := fun _ => rfl

def Ledger.system (c : Config) (l : Ledger) : System := ⟨l.disk, some (l.wal c)⟩

theorem Entry.Fits.dataLen {e : Entry} (h : e.Fits) : e.data.length < 2 ^ 32 := by
  have h : 19 + e.data.length ≤ 64 * 1024 := h
  omega

section Session

variable {config : Option Config} {c : Config} {l : Ledger} {e : Entry}

theorem Ledger.Open.entry (h : l.Open) (he : e ∈ l.log) : e.Encodable ∧ e.Fits :=
  ⟨h.encodable.entry h.numbered he, h.fits e he⟩

theorem Ledger.Open.scan (h : l.Open) {f : Filed} (hf : f ∈ l.files) (hclean : f.torn = []) :
    Wal.scan f.content = items f.held ++ [.stop .eof] := by
  rw [Filed.content_of_clean hclean]
  exact scan_clean fun e he => h.entry (mem_entries hf he)

theorem Ledger.Open.readable (h : l.Open) {f : Filed} (hf : f ∈ l.files) (hclean : f.torn = []) :
    f.Readable := by
  rw [Filed.Readable, Filed.content_of_clean hclean]
  exact outcome_clean fun e he => h.entry (mem_entries hf he)

theorem log_room (c : Config) (l : Ledger) (e : Entry) : (l.room c e).log = l.log := by
  rw [room]
  split_ifs
  · exact l.log_rotate
  · rfl

theorem log_room_write (c : Config) (l : Ledger) (e : Entry) :
    ((l.room c e).write e).log = l.log ++ [e] := by
  rw [log_write, log_room]

theorem closed_room (c : Config) (l : Ledger) (e : Entry) : (l.room c e).closed = l.closed := by
  rw [room]
  split_ifs <;> rfl

theorem Ledger.Sound.room (h : l.Sound) (c : Config) (e : Entry) : (l.room c e).Sound := by
  rw [Ledger.room]
  split_ifs
  · exact h.rotate
  · exact h

theorem run_append_cons (config : Option Config) (c : Config) (h : l.Ok)
    (ho : l.handle = .opened) (hc : l.closed = false) {opType : OpType} {data : Bytes}
    (hacc : opType = opCheckpoint ∨ data ≠ []) (ops : List Op) :
    ∃ e : Entry, e = ⟨l.next, opType, data⟩ ∧
      (l.system c).run config (.append opType data none :: ops) =
        (((((l.room c e).write e).system c).run config ops).1,
          e :: ((((l.room c e).write e).system c).run config ops).2) := by
  refine ⟨_, rfl, ?_⟩
  have happ := append_ledger c (e := ⟨l.next, opType, data⟩) h ho hc rfl hacc
  rw [System.run, step_append config (w := l.wal c) rfl happ]
  rfl

theorem Ledger.Open.append (h : l.Open) (c : Config) (he : e.offset = l.next)
    (hfit : e.Fits) (hlen : l.log.length + 1 < 2 ^ 63) : ((l.room c e).write e).Open where
  ok := (h.ok.room c e).write (by have := h.next; omega)
  numbered := by
    rw [log_room_write]
    exact h.numbered.concat (he.trans h.next)
  encodable := by
    refine ⟨?_, ?_⟩ <;> rw [log_room_write]
    · rw [length_append]
      exact hlen
    · exact forall_mem_append.2 ⟨h.encodable.dataLen, forall_mem_singleton.2 hfit.dataLen⟩
  next := by
    have hnext := h.next
    show int64 (e.offset + 1) = _
    rw [log_room_write, he, int64_of_bounds (by omega) (by omega)]
    simp [hnext]
  opened := opened_room c h.opened e
  notClosed := (closed_room c l e).trans h.notClosed
  fits := by
    rw [log_room_write]
    exact forall_mem_append.2 ⟨h.fits, forall_mem_singleton.2 hfit⟩

theorem Ledger.Session.append (h : l.Session) (c : Config) (he : e.offset = l.next)
    (hfit : e.Fits) (hlen : l.log.length + 1 < 2 ^ 63) : ((l.room c e).write e).Session where
  toOpen := h.toOpen.append c he hfit hlen
  clean := by
    have hoff : e.offset = (l.room c e).log.length := by
      rw [log_room]
      exact he.trans h.next
    exact ((h.sound.room c e).write hoff).clean
  lastHolds := by
    intro hnil
    rw [write] at hnil
    simp at hnil

theorem Ledger.Session.reopen (h : l.Session) : l.reopen.Session where
  ok := h.ok.congr rfl
  numbered := h.numbered
  encodable := ⟨h.encodable.length, h.encodable.dataLen⟩
  next := reopen_next h.numbered h.encodable h.lastHolds
  opened := rfl
  notClosed := rfl
  fits := h.fits
  clean := h.clean
  lastHolds := h.lastHolds

theorem Ledger.Session.run_reopen (hc : checked config = .ok c) (h : l.Session) :
    (l.system c).run config [.close, .new] = (l.reopen.system c, []) := by
  simp only [System.run, System.step, system, newWAL_ledger hc h.ok fun f hf =>
    h.readable hf (h.clean f hf)]
  rfl

theorem Ledger.Session.run (hc : checked config = .ok c) (h : l.Session) {calls : List Call}
    (hacc : ∀ call ∈ calls, call.Accepted)
    (hfit : ∀ p ∈ payloads calls, entryHeaderSize + p.2.length ≤ windowSize)
    (hlen : l.log.length + calls.length < 2 ^ 63) :
    ∃ l' : Ledger, l'.Session ∧ (l.system c).run config (calls.flatMap Call.ops) =
        (l'.system c, ((l.system c).run config (calls.flatMap Call.ops)).2) ∧
      l'.log = l.log ++ ((l.system c).run config (calls.flatMap Call.ops)).2 ∧
      ((l.system c).run config (calls.flatMap Call.ops)).2.map (fun e => (e.type, e.data)) =
        payloads calls := by
  induction calls generalizing l with
  | nil => exact ⟨l, h, rfl, (append_nil _).symm, rfl⟩
  | cons call calls ih =>
    rw [length_cons] at hlen
    rw [forall_mem_cons] at hacc
    cases call with
    | append opType data =>
      rw [payloads, forall_mem_cons] at hfit
      obtain ⟨e, he, hrun⟩ := run_append_cons config c h.ok h.opened h.notClosed hacc.1
        (calls.flatMap Call.ops)
      have hfit' : e.Fits := he ▸ hfit.1
      obtain ⟨l', hl', hrest, hlog, hpay⟩ := ih (h.append c (by rw [he]) hfit' (by omega)) hacc.2
        hfit.2 (by rw [log_room_write]; simp; omega)
      have hops : (Call.append opType data :: calls).flatMap Call.ops =
          .append opType data none :: calls.flatMap Call.ops := rfl
      rw [hops, hrun]
      refine ⟨l', hl', ?_, ?_, ?_⟩
      · rw [hrest]
      · rw [hlog, log_room_write, append_assoc]
        rfl
      · rw [map_cons, hpay, he]
        rfl
    | reopen =>
      obtain ⟨l', hl', hrun, hlog, hpay⟩ := ih h.reopen hacc.2 hfit
        (show l.log.length + calls.length < 2 ^ 63 by omega)
      rw [flatMap_cons, run_append, Call.ops, h.run_reopen hc]
      refine ⟨l', hl', ?_, hlog, hpay⟩
      rw [hrun]

theorem Ledger.Session.run_large (hc : checked config = .ok c) (h : l.Session)
    {calls : List Call} (hacc : ∀ call ∈ calls, call.Accepted)
    (hlarge : ∃ p ∈ payloads calls, windowSize < entryHeaderSize + p.2.length)
    (hlen : l.log.length + calls.length < 2 ^ 63) :
    ∃ e ∈ ((l.system c).run config (calls.flatMap Call.ops)).2, 0 ≤ e.offset ∧ ¬ e.Fits := by
  induction calls generalizing l with
  | nil =>
    obtain ⟨p, hp, -⟩ := hlarge
    cases hp
  | cons call calls ih =>
    rw [length_cons] at hlen
    rw [forall_mem_cons] at hacc
    cases call with
    | append opType data =>
      obtain ⟨e, he, hrun⟩ := run_append_cons config c h.ok h.opened h.notClosed hacc.1
        (calls.flatMap Call.ops)
      have hops : (Call.append opType data :: calls).flatMap Call.ops =
          .append opType data none :: calls.flatMap Call.ops := rfl
      rw [hops, hrun]
      by_cases hfit : e.Fits
      · obtain ⟨p, hp, hlt⟩ := hlarge
        have hp' : p ∈ payloads calls := by
          rcases mem_cons.1 hp with rfl | hp
          · rw [he] at hfit
            exact absurd hfit (Nat.not_le.2 hlt)
          · exact hp
        obtain ⟨x, hx, hbad⟩ := ih (h.append c (by rw [he]) hfit (by omega)) hacc.2 ⟨p, hp', hlt⟩
          (by rw [log_room_write]; simp; omega)
        exact ⟨x, mem_cons_of_mem e hx, hbad⟩
      · refine ⟨e, mem_cons_self .., ?_, hfit⟩
        have hnext := h.next
        rw [he]
        show 0 ≤ l.next
        omega
    | reopen =>
      rw [flatMap_cons, run_append, Call.ops, h.run_reopen hc]
      obtain ⟨e, he, hbad⟩ := ih h.reopen hacc.2 hlarge
        (show l.log.length + calls.length < 2 ^ 63 by omega)
      exact ⟨e, mem_append_right _ he, hbad⟩

end Session

theorem readSegments_fits {d : Disk} {s : Int} {segs : List Segment} {acc : List Entry}
    (hacc : ∀ e ∈ acc, e.Fits) : ∀ e ∈ (readSegments d s segs acc).1, e.Fits := by
  induction segs generalizing acc with
  | nil => exact hacc
  | cons seg segs ih =>
    rw [readSegments, readSegmentEntriesStream, entriesLoop_eq]
    cases hout : outcome (scan ((d.read seg.id).getD [])) with
    | error err => exact hacc
    | ok es =>
      exact ih (forall_mem_append.2 ⟨hacc, fun e he => outcome_fits hout (mem_filter.1 he).1⟩)

theorem readFrom_fits (w : WAL) (d : Disk) (s : Int) : ∀ e ∈ (readFrom w d s).1, e.Fits := by
  rw [readFrom]
  split_ifs
  · simp
  · simp
  · cases readStart s w.segments with
    | none => simp
    | some seg => exact readSegments_fits (by simp)

variable {config : Option Config}

theorem runCalls_eq {c : Config} (hc : checked config = .ok c) (calls : List Call) :
    runCalls config calls = (init.system c).run config (calls.flatMap Call.ops) := by
  have hnew : System.init.step config .new = (init.system c, none) := by
    simp only [System.step, System.init, newWAL_init hc]
    rfl
  rw [runCalls, System.run, hnew]
  rfl

theorem not_readsBack_of_large {c : Config} (hc : checked config = .ok c) {calls : List Call}
    (hacc : ∀ call ∈ calls, call.Accepted)
    (hlarge : ∃ p ∈ payloads calls, windowSize < entryHeaderSize + p.2.length)
    (hlen : calls.length < 2 ^ 63) : ¬ ReadsBack config calls := by
  rintro ⟨-, w, -, hread⟩
  obtain ⟨e, he, hpos, hbad⟩ := Session.init.run_large hc hacc hlarge
    (show 0 + calls.length < 2 ^ 63 by omega)
  rw [← runCalls_eq hc] at he
  have hall := readFrom_fits w (runCalls config calls).1.disk 0
  rw [(hread 0 (Int.le_refl 0)).1] at hall
  exact hbad (hall e (mem_filter.2 ⟨he, by simpa using hpos⟩))

/-- What was appended is read back exactly when every record fits the window of the reader. -/
theorem readsBack_iff (config : Option Config) (c : Config) (hc : checked config = .ok c)
    (calls : List Call) (hacc : ∀ call ∈ calls, call.Accepted) (hlen : calls.length < 2 ^ 63) :
    ReadsBack config calls ↔ ∀ p ∈ payloads calls, entryHeaderSize + p.2.length ≤ windowSize := by
  constructor
  · intro h
    by_contra hn
    push Not at hn
    exact not_readsBack_of_large hc hacc hn hlen h
  · intro hfit
    obtain ⟨l, hl, hrun, hlog, hpay⟩ := Session.init.run hc hacc hfit
      (show 0 + calls.length < 2 ^ 63 by omega)
    rw [← runCalls_eq hc] at hrun hlog hpay
    have hlog : l.log = (runCalls config calls).2 := hlog
    rw [ReadsBack, ← hlog]
    refine ⟨hlog ▸ hpay, l.wal c, ?_, fun s hs => ?_⟩
    · rw [hrun]
      rfl
    · have hdisk : (runCalls config calls).1.disk = l.disk := by
        rw [hrun]
        rfl
      rw [hdisk]
      have hasc := hl.numbered.ascending
      exact ⟨readFrom_ledger c hl.ok hasc hl.notClosed (fun f hf => hl.readable hf (hl.clean f hf)) hs,
        fun σ cb st => recoverFrom_ledger c hl.ok hasc hl.notClosed
          (fun f hf => hl.scan hf (hl.clean f hf)) hs cb st⟩

def twoFiles : List Call := [.append opPut [1], .reopen, .append opCheckpoint []]

theorem readsBack_twoFiles : ReadsBack (some tinyConfig) twoFiles :=
  (readsBack_iff (some tinyConfig) tinyConfig rfl twoFiles
    (by simp [twoFiles, Call.Accepted]) (by decide)).2 (by decide)

theorem not_readsBack_single {data : Bytes} (h : windowSize < entryHeaderSize + data.length) :
    (∀ call ∈ [Call.append opPut data], call.Accepted) ∧
      ¬ ReadsBack (some defaultConfig) [.append opPut data] := by
  have hacc : ∀ call ∈ [Call.append opPut data], call.Accepted := by
    intro call hcall
    rw [mem_singleton.1 hcall]
    right
    rintro rfl
    exact absurd h (by decide)
  exact ⟨hacc, not_readsBack_of_large (c := defaultConfig) rfl hacc
    ⟨(opPut, data), mem_singleton_self _, h⟩ (by simp)⟩

def longPayload : Bytes := List.replicate 65518 0

theorem not_readsBack_longPayload : (∀ call ∈ [Call.append opPut longPayload], call.Accepted) ∧
      ¬ ReadsBack (some defaultConfig) [.append opPut longPayload] := by
  refine not_readsBack_single ?_
  rw [longPayload, length_replicate]
  decide

end Solocoder.Wal
