import Mathlib.Algebra.Order.BigOperators.Group.List
import Solocoder.WAL.Proofs.ReadBackProofs

/-!
# Torn writes

`New` leaves the bytes of a torn record in their file. Later appends are found again exactly when
each magic number in the torn bytes announces a record that fits the rest of the file, and their
offsets go on exactly when the torn bytes do not stand alone in a new file.
-/

namespace Solocoder.Wal

open List Option Ledger Filed

/-! ## The run -/

/-- The calls of `Append` for these entries. -/
def appends (ps : List (OpType × Bytes)) : List Op := ps.map fun p => .append p.1 p.2 none

/-- A log is opened and appended to, before and after a write that leaves `k` bytes of its record.
-/
def tornRun (before : List (OpType × Bytes)) (torn : OpType × Bytes) (k : Nat)
    (after : List (OpType × Bytes)) : List Op :=
  .new :: appends before ++ (.append torn.1 torn.2 (some (.write k)) :: .new :: appends after)

/-- All the entries are acknowledged with ascending offsets, and `ReadFrom(0)` returns them. -/
def Recovered (config : Option Config) (before : List (OpType × Bytes)) (torn : OpType × Bytes)
    (k : Nat) (after : List (OpType × Bytes)) : Prop :=
  let r := System.init.run config (tornRun before torn k after)
  r.2.map (fun e => (e.type, e.data)) = before ++ after ∧ Ascending r.2 ∧
    ∃ w, r.1.wal = some w ∧ readFrom w r.1.disk 0 = (r.2, none)

/-- The entry of the torn write. -/
def WAL.tornEntry (w : WAL) (torn : OpType × Bytes) : Entry := ⟨w.nextOffset, torn.1, torn.2⟩

/-- The file that it is written to. -/
def WAL.tornFile (w : WAL) (e : Entry) : Nat :=
  if w.full (encodeEntry e) then w.activeSeg.id + 1 else w.activeSeg.id

/-- What the file has behind the `k` bytes of the torn write. -/
def bytesBehind (d₀ d : Disk) (id k : Nat) : Bytes :=
  ((d.read id).getD []).drop (((d₀.read id).getD []).length + k)

/-! ## The torn write -/

def Ledger.tear (l : Ledger) (p : Bytes) : Ledger :=
  { l with active := ⟨l.active.id, l.active.held, p, []⟩ }

section Tear

variable {config : Option Config} {c : Config} {l : Ledger} {p : Bytes}

theorem Ledger.held_tear (l : Ledger) (p : Bytes) : (l.tear p).active.held = l.active.held :=
  append_nil _

theorem Ledger.log_tear (l : Ledger) (p : Bytes) : (l.tear p).log = l.log := by
  rw [log_eq, log_eq, l.held_tear]
  rfl

theorem Ledger.Ok.tear (h : l.Ok) (p : Bytes) : (l.tear p).Ok :=
  h.replace rfl rfl (by rw [l.held_tear]; exact h.active_nonneg)

theorem Ledger.content_tear (h : l.active.torn = []) (p : Bytes) :
    (l.tear p).active.content = l.active.content ++ p := by
  rw [content_of_clean h]
  show encodeAll l.active.held ++ (p ++ []) = _
  rw [append_nil]

theorem writeEntry_torn (c : Config) (h : l.Sound) (ho : l.handle = .opened) (offset : Int)
    (encoded : Bytes) (k : Nat) :
    writeEntry (l.wal c) l.disk (some (.write k)) offset encoded =
      (l.wal c, (l.tear (encoded.take k)).disk, .error .writeEntry) := by
  rw [← h.ok.disk_append (l.tear (encoded.take k)) rfl rfl
    (content_tear (h.clean _ l.active_mem) _)]
  simp only [writeEntry]
  rw [if_neg (by simp [wal, Filed.segment, ho])]
  rfl

theorem append_torn (c : Config) (h : l.Session) {e : Entry} (he : e.offset = l.next)
    (hacc : e.type = opCheckpoint ∨ e.data ≠ []) (k : Nat) :
    append (l.wal c) l.disk e.type e.data (some (.write k)) =
      ((l.room c e).wal c, ((l.room c e).tear ((encodeEntry e).take k)).disk, .error .writeEntry) := by
  rw [append_room c h.ok h.opened h.notClosed he hacc (by simp) (by simp) (by simp)]
  exact writeEntry_torn c (h.sound.room c e) (opened_room c h.opened e) _ _ k

theorem readable_tear (c : Config) (h : l.Session) {e : Entry} (he : e.offset = l.next)
    (hfit : e.Fits) {k : Nat} (hk : k < (encodeEntry e).length) :
    ∀ f ∈ ((l.room c e).tear ((encodeEntry e).take k)).files, f.Readable := by
  have hr := h.sound.room c e
  have hentries : ∀ f ∈ (l.room c e).files, ∀ x ∈ f.held, x.Encodable ∧ x.Fits := by
    intro f hf x hx
    have hmem : x ∈ (l.room c e).log := mem_entries hf hx
    rw [log_room] at hmem
    exact h.entry hmem
  intro f hf
  rcases mem_append.1 hf with hf | hf
  · have hmem : f ∈ (l.room c e).files := mem_append_left _ hf
    rw [Readable, content_of_clean (hr.clean f hmem)]
    exact outcome_clean (hentries f hmem)
  · have hmem := active_mem (l.room c e)
    rw [mem_singleton.1 hf, Readable, content_tear (hr.clean _ hmem),
      content_of_clean (hr.clean _ hmem), held_tear]
    have hlen := h.encodable.length
    have hnext := h.next
    exact outcome_torn (hentries _ hmem) ⟨by omega, by omega, hfit.dataLen⟩ hfit hk

theorem run_torn (hc : Config.checked config = .ok c) (h : l.Session) {e : Entry}
    (he : e.offset = l.next) (hacc : e.type = opCheckpoint ∨ e.data ≠ []) (hfit : e.Fits) {k : Nat}
    (hk : k < (encodeEntry e).length) (ops : List Op) :
    (l.system c).run config (.append e.type e.data (some (.write k)) :: .new :: ops) =
      (((l.room c e).tear ((encodeEntry e).take k)).reopen.system c).run config ops := by
  have hstep := step_append config (w := l.wal c) (s := l.system c) rfl (append_torn c h he hacc k)
  rw [System.run, hstep, System.run]
  simp only [System.step, newWAL_ledger hc ((h.ok.room c e).tear _) (readable_tear c h he hfit hk)]
  rfl

end Tear

/-! ## Appending behind torn bytes -/

/-- The ledger `l` after appends to `m`, whose last file ends with torn bytes: `fs` follow them
there, and the later files have no torn bytes. -/
structure Resumed (m l : Ledger) (fs : List Entry) : Prop extends l.Open where
  files : ∃ rest, l.files = m.older ++ { m.active with after := fs } :: rest ∧
    ∀ f ∈ rest, f.torn = []

section Resumed

variable {c : Config} {m l : Ledger} {fs : List Entry}

theorem Resumed.append (h : Resumed m l fs) (c : Config) {e : Entry} (he : e.offset = l.next)
    (hfit : e.Fits) (hlen : l.log.length + 1 < 2 ^ 63) :
    ∃ fs', Resumed m ((l.room c e).write e) fs' := by
  have hopen := h.toOpen.append c he hfit hlen
  obtain ⟨rest, hfiles, hclean⟩ := h.files
  by_cases hfull : l.full c e
  · refine ⟨fs, hopen, rest ++ [(empty (l.active.id + 1)).add e], ?_, ?_⟩
    · rw [room, if_pos hfull]
      show l.files ++ [(empty (l.active.id + 1)).add e] = _
      rw [hfiles]
      simp
    · exact forall_mem_append.2 ⟨hclean, forall_mem_singleton.2 rfl⟩
  · rw [room, if_neg hfull] at hopen ⊢
    rcases eq_nil_or_concat rest with rfl | ⟨rest, last, rfl⟩
    · obtain ⟨holder, hactive⟩ := append_inj' hfiles rfl
      have hactive : l.active = { m.active with after := fs } := head_eq_of_cons_eq hactive
      refine ⟨fs ++ [e], hopen, [], ?_, by simp⟩
      show l.older ++ [l.active.add e] = _
      rw [holder, hactive]
      rfl
    · have hfiles' : l.older ++ [l.active] =
          (m.older ++ { m.active with after := fs } :: rest) ++ [last] := by
        rw [← Ledger.files, hfiles]
        simp
      obtain ⟨holder, hactive⟩ := append_inj' hfiles' rfl
      have hactive : l.active = last := head_eq_of_cons_eq hactive
      refine ⟨fs, hopen, rest ++ [last.add e], ?_, forall_mem_append.2 ⟨fun f hf => ?_, ?_⟩⟩
      · show l.older ++ [l.active.add e] = _
        rw [holder, hactive]
        simp
      · exact hclean f (by simp [hf])
      · exact forall_mem_singleton.2 (hclean last (by simp) :)

theorem Resumed.run (h : Resumed m l fs) (config : Option Config) (c : Config)
    {ps : List (OpType × Bytes)} (hacc : ∀ p ∈ ps, p.1 = opCheckpoint ∨ p.2 ≠ [])
    (hfit : ∀ p ∈ ps, entryHeaderSize + p.2.length ≤ windowSize)
    (hlen : l.log.length + ps.length < 2 ^ 63) :
    ∃ l' fs', Resumed m l' fs' ∧ (l.system c).run config (appends ps) =
        (l'.system c, ((l.system c).run config (appends ps)).2) ∧
      l'.log = l.log ++ ((l.system c).run config (appends ps)).2 ∧
      ((l.system c).run config (appends ps)).2.map (fun e => (e.type, e.data)) = ps := by
  induction ps generalizing l fs with
  | nil => exact ⟨l, fs, h, rfl, (append_nil _).symm, rfl⟩
  | cons p ps ih =>
    obtain ⟨e, he, hrun⟩ := run_append_cons config c h.ok h.opened h.notClosed
      (hacc p (mem_cons_self ..)) (appends ps)
    have hfit' : e.Fits := he ▸ hfit p (mem_cons_self ..)
    rw [length_cons] at hlen
    obtain ⟨fs', h'⟩ := h.append c (by rw [he]) hfit' (by omega)
    obtain ⟨l', fs'', hl', hrest, hlog, hpay⟩ := ih h'
      (fun x hx => hacc x (mem_cons_of_mem p hx)) (fun x hx => hfit x (mem_cons_of_mem p hx))
      (by rw [log_room_write]; simp; omega)
    have hops : appends (p :: ps) = .append p.1 p.2 none :: appends ps := rfl
    rw [hops, hrun]
    refine ⟨l', fs'', hl', ?_, ?_, ?_⟩
    · rw [hrest]
    · rw [hlog, log_room_write, append_assoc]
      rfl
    · rw [map_cons, hpay, he]

def tornAnd (m : Ledger) (fs : List Entry) : Filed := { m.active with after := fs }

theorem Resumed.readable (h : Resumed m l fs) (hm : ∀ f ∈ m.older, f.torn = []) {f : Filed}
    (hf : f ∈ l.files) (hne : f ≠ tornAnd m fs) : f.Readable := by
  obtain ⟨rest, hfiles, hrest⟩ := h.files
  refine h.toOpen.readable hf ?_
  rw [hfiles] at hf
  rcases mem_append.1 hf with hf | hf
  · exact hm f hf
  · rcases mem_cons.1 hf with rfl | hf
    · exact absurd rfl hne
    · exact hrest f hf

theorem Resumed.tornAnd_mem (h : Resumed m l fs) : tornAnd m fs ∈ l.files := by
  obtain ⟨rest, hfiles, -⟩ := h.files
  rw [hfiles]
  exact mem_append_right _ (mem_cons_self ..)

def Filed.found (f : Filed) : List Entry := (outcome (scan f.content)).toOption.getD []

theorem readSegments_found {d : Disk} {hd : Filed → Handle} {gs : List Filed} {acc res : List Entry}
    (hread : ∀ f ∈ gs, d.read f.id = some f.content)
    (h : readSegments d 0 (gs.map fun f => f.segment (hd f)) acc = (res, none)) :
    res.length ≤ acc.length + (gs.flatMap found).length := by
  induction gs generalizing acc with
  | nil =>
    cases h
    simp
  | cons f gs ih =>
    have hid : (f.segment (hd f)).id = f.id := rfl
    rw [map_cons, readSegments, hid, hread f (mem_cons_self ..), getD_some,
      readSegmentEntriesStream, entriesLoop_eq] at h
    cases hout : outcome (scan f.content) with
    | error err =>
      rw [hout] at h
      cases h
    | ok es =>
      rw [hout] at h
      have hle := ih (fun g hg => hread g (mem_cons_of_mem f hg)) h
      have hfound : f.found = es := by
        rw [found, hout]
        rfl
      have hfilter := length_filter_le (fun e : Entry => decide ((0 : Int) ≤ e.offset)) es
      rw [flatMap_cons, hfound, length_append]
      have hle : res.length ≤ (acc ++ es.filter fun e => decide ((0 : Int) ≤ e.offset)).length +
        (gs.flatMap found).length := hle
      rw [length_append] at hle
      omega

theorem readFrom_lost (c : Config) {g : Filed} (h : l.Open) (hg : g ∈ l.files)
    (hlost : g.found.length < g.held.length) (hr : ∀ f ∈ l.files, f ≠ g → f.Readable) :
    readFrom (l.wal c) l.disk 0 ≠ (l.log, none) := by
  intro hread
  obtain ⟨x, hx⟩ := exists_mem_of_length_pos (Nat.zero_lt_of_lt hlost)
  have hxlog : x ∈ l.log := mem_entries hg hx
  rw [readFrom, if_neg (by simp [wal, h.notClosed])] at hread
  rcases h.ok.start c (s := 0) h.numbered.ascending with
    ⟨hnone, -⟩ | ⟨seg, pre, gs, hsome, heq, hfrom, hpre⟩
  · rw [hnone] at hread
    have hnil : [] = l.log := congrArg Prod.fst hread
    rw [← hnil] at hxlog
    cases hxlog
  · have hsub : ∀ f ∈ gs, f ∈ l.files := fun f hf => heq ▸ mem_append_right pre hf
    rw [hsome] at hread
    have hread : readSegments l.disk 0 ((l.wal c).segmentsFrom seg) [] = (l.log, none) := hread
    rw [hfrom] at hread
    have hle := readSegments_found (fun f hf => h.ok.read (hsub f hf)) hread
    -- no offset is negative, so the files before the first segment hold nothing
    have hnonneg : ∀ f ∈ pre, f.held = [] := by
      intro f hf
      refine eq_nil_iff_forall_not_mem.2 fun e he => ?_
      have hneg := hpre e (mem_entries hf he)
      have hpos := h.ok.nonneg e (mem_entries (heq ▸ mem_append_left gs hf) he)
      omega
    have hlog : l.log = entries gs := by
      rw [log, heq, entries_append, entries, flatMap_eq_nil_iff.2 hnonneg, nil_append]
    have hgs : g ∈ gs := by
      rcases mem_append.1 (heq ▸ hg) with hg | hg
      · rw [hnonneg g hg] at hx
        cases hx
      · exact hg
    have hlt : (gs.flatMap found).length < (entries gs).length := by
      rw [entries, length_flatMap, length_flatMap]
      refine sum_lt_sum _ _ (fun f hf => ?_) ⟨g, hgs, hlost⟩
      by_cases hfg : f = g
      · rw [hfg]
        exact hlost.le
      · have hfound : f.found = f.held := by
          rw [found, hr f (hsub f hf) hfg]
          rfl
        exact Nat.le_of_eq (congrArg length hfound)
    rw [hlog] at hle
    simp only [length_nil] at hle
    omega

/-- With the entries `fs` behind the torn bytes, all entries are read back exactly when the reader
finds its way to `fs`. -/
theorem Resumed.readFrom_iff (h : Resumed m l fs) (c : Config) (hm : ∀ f ∈ m.older, f.torn = [])
    (hafter : m.active.after = []) (hmr : m.active.Readable)
    (hu : Unaccepted m.active.torn (encodeAll fs)) :
    readFrom (l.wal c) l.disk 0 = (l.log, none) ↔ fs = [] ∨ Resumes m.active.torn (encodeAll fs) := by
  have hentry : ∀ e ∈ (tornAnd m fs).held, e.Encodable ∧ e.Fits :=
    fun e he => h.entry (mem_entries h.tornAnd_mem he)
  have hbefore : ∀ e ∈ m.active.before, e.Encodable ∧ e.Fits :=
    fun e he => hentry e (mem_append_left _ he)
  constructor
  · intro hread
    by_contra hn
    push Not at hn
    refine readFrom_lost c h.toOpen h.tornAnd_mem ?_ (fun f hf hne => h.readable hm hf hne) hread
    have hlen : (tornAnd m fs).held.length = m.active.before.length + fs.length :=
      length_append
    have hpos := length_pos_of_ne_nil hn.1
    rw [found]
    rcases outcome_not_resumes hbefore hn.1 hu hn.2 with heq | heq
    · have heq : outcome (scan (tornAnd m fs).content) = _ := heq
      rw [heq]
      show m.active.before.length < _
      omega
    · have heq : outcome (scan (tornAnd m fs).content) = _ := heq
      rw [heq]
      show 0 < _
      omega
  · intro hr
    have htorn : (tornAnd m fs).Readable := by
      by_cases hne : fs = []
      · have heq : tornAnd m fs = m.active := by
          rw [tornAnd, hne, ← hafter]
        rw [heq]
        exact hmr
      · exact outcome_resumes hbefore (fun e he => hentry e (mem_append_right _ he)) hne hu
          (hr.resolve_left hne)
    refine readFrom_zero c h.ok h.numbered.ascending h.notClosed fun f hf => ?_
    by_cases hne : f = tornAnd m fs
    · exact hne ▸ htorn
    · exact h.readable hm hf hne

end Resumed

/-! ## Recovery -/

section Recovery

variable {config : Option Config} {c : Config} {before after : List (OpType × Bytes)}
  (ps : List (OpType × Bytes))

theorem appends_eq : appends ps = (ps.map fun p => Call.append p.1 p.2).flatMap Call.ops := by
  rw [flatMap_map, appends, map_eq_flatMap]
  rfl

theorem payloads_append : payloads (ps.map fun p => Call.append p.1 p.2) = ps := by
  induction ps with
  | nil => rfl
  | cons p ps ih =>
    rw [map_cons, payloads, ih]

theorem run_before (hc : Config.checked config = .ok c)
    (hacc : ∀ p ∈ before, p.1 = opCheckpoint ∨ p.2 ≠ [])
    (hfit : ∀ p ∈ before, entryHeaderSize + p.2.length ≤ windowSize) (hlen : before.length < 2 ^ 63) :
    ∃ l : Ledger, l.Session ∧ l.log.map (fun e => (e.type, e.data)) = before ∧
      System.init.run config (.new :: appends before) = (l.system c, l.log) := by
  have hacc' : ∀ call ∈ before.map fun p => Call.append p.1 p.2, call.Accepted := by
    intro call hcall
    obtain ⟨p, hp, rfl⟩ := mem_map.1 hcall
    exact hacc p hp
  obtain ⟨l, hl, hrun, hlog, hpay⟩ := Session.init.run hc hacc'
    (by rw [payloads_append]; exact hfit) (show 0 + _ < _ by rw [length_map]; omega)
  have heq : System.init.run config (.new :: appends before) =
      (init.system c).run config ((before.map fun p => Call.append p.1 p.2).flatMap Call.ops) := by
    rw [appends_eq]
    exact runCalls_eq hc _
  have hlog : l.log = (System.init.run config (.new :: appends before)).2 := by
    rw [heq]
    exact hlog
  rw [payloads_append, ← heq, ← hlog] at hpay
  refine ⟨l, hl, hpay, Prod.ext ?_ hlog.symm⟩
  rw [heq, hrun]

theorem read_room {l : Ledger} (h : l.Sound) (c : Config) (e : Entry) :
    (l.disk.read (l.room c e).active.id).getD [] = encodeAll (l.room c e).active.held := by
  rw [room]
  split_ifs with hfull
  · have hnone : l.disk.read (l.active.id + 1) = none := by
      rw [Disk.read, lookup_eq_none_iff]
      intro f hf
      rw [bne_iff_ne]
      exact fun heq => h.ok.id_notMem (heq ▸ mem_map_of_mem hf)
    show (l.disk.read (l.active.id + 1)).getD [] = encodeAll []
    rw [hnone]
    rfl
  · rw [h.ok.read l.active_mem, getD_some, content_of_clean (h.clean _ l.active_mem)]

theorem tornFile_eq (c : Config) (l : Ledger) (e : Entry) :
    (l.wal c).tornFile e = (l.room c e).active.id := by
  rw [room]
  show (if l.full c e then _ else _) = _
  split_ifs <;> rfl

theorem bytesBehind_eq {l0 l : Ledger} {e : Entry} {k : Nat} {fs : List Entry} (hs : l0.Sound)
    (hok : l.Ok) (hmem : tornAnd ((l0.room c e).tear ((encodeEntry e).take k)) fs ∈ l.files)
    (hk : k < (encodeEntry e).length) :
    bytesBehind l0.disk l.disk ((l0.wal c).tornFile e) k = encodeAll fs := by
  have hread := hok.read hmem
  have hid : (tornAnd ((l0.room c e).tear ((encodeEntry e).take k)) fs).id = (l0.room c e).active.id :=
    rfl
  have hcontent : (tornAnd ((l0.room c e).tear ((encodeEntry e).take k)) fs).content =
      encodeAll (l0.room c e).active.held ++ ((encodeEntry e).take k ++ encodeAll fs) := rfl
  have hlen : ((encodeEntry e).take k).length = k := length_take_of_le hk.le
  rw [hid, hcontent] at hread
  rw [bytesBehind, tornFile_eq, hread, read_room hs, ← append_assoc]
  exact drop_left' (by rw [length_append, hlen])

/-- The ledger `m` has the first `k` bytes of the record of `e`, which are `p`, behind the ledger `l`
of a session. -/
structure Torn (c : Config) (l : Ledger) (e : Entry) (k : Nat) (p : Bytes) (m : Ledger) : Prop where
  session : l.Session
  offset : e.offset = l.next
  fits : e.Fits
  short : k < (encodeEntry e).length
  bytes : p = (encodeEntry e).take k
  ledger : m = (l.room c e).tear p

section Torn

variable {l m : Ledger} {e : Entry} {k : Nat} {p q : Bytes}

section

variable (h : Torn c l e k p m)
include h

theorem Torn.log : m.log = l.log := by
  rw [h.ledger, log_tear, log_room]

theorem Torn.ok : m.Ok := h.ledger ▸ (h.session.ok.room c e).tear p

theorem Torn.readable : ∀ f ∈ m.files, f.Readable := by
  rw [h.ledger, h.bytes]
  exact readable_tear c h.session h.offset h.fits h.short

theorem Torn.bytesBehind {l' : Ledger} {fs : List Entry} (hok : l'.Ok)
    (hmem : tornAnd m fs ∈ l'.files) :
    Wal.bytesBehind l.disk l'.disk ((l.wal c).tornFile e) k = encodeAll fs := by
  rw [h.ledger, h.bytes] at hmem
  exact bytesBehind_eq h.session.sound hok hmem h.short

theorem Torn.resumed (hlast : (l.room c e).LastHolds) : Resumed m m.reopen [] := by
  have hl := h.session
  have hn : Numbered m.log := h.log ▸ hl.numbered
  have henc : m.Encodable := by
    refine ⟨?_, ?_⟩ <;> rw [h.log]
    · exact hl.encodable.length
    · exact hl.encodable.dataLen
  have hholds : m.LastHolds := by
    intro hnil
    rw [h.ledger, held_tear] at hnil
    rw [h.ledger, log_tear]
    exact hlast hnil
  refine ⟨⟨h.ok.congr rfl, hn, ⟨henc.length, henc.dataLen⟩, reopen_next hn henc hholds, rfl, rfl,
    fun x hx => hl.fits x (h.log ▸ hx)⟩, [], ?_, by simp⟩
  rw [h.ledger]
  rfl

end

/-- The part of `Recovered` from the second `New` on, for the ledgers before the torn write and after
it. -/
def Regained (config : Option Config) (c : Config) (l m : Ledger)
    (after : List (OpType × Bytes)) : Prop :=
  let r := (m.reopen.system c).run config (appends after)
  r.2.map (fun e => (e.type, e.data)) = after ∧ Ascending (l.log ++ r.2) ∧
    ∃ w, r.1.wal = some w ∧ readFrom w r.1.disk 0 = (l.log ++ r.2, none)

/-- If the offsets go on, only the way of the reader to the later entries is in question. -/
theorem Torn.regained_iff (h : Torn c l e k p m) (config : Option Config)
    (hlast : (l.room c e).LastHolds) (hacc : ∀ x ∈ after, x.1 = opCheckpoint ∨ x.2 ≠ [])
    (hfit : ∀ x ∈ after, entryHeaderSize + x.2.length ≤ windowSize)
    (hlen : l.log.length + after.length < 2 ^ 63)
    (hq : q = Wal.bytesBehind l.disk ((m.reopen.system c).run config (appends after)).1.disk
      ((l.wal c).tornFile e) k)
    (hu : Unaccepted p q) : Regained config c l m after ↔ q = [] ∨ Resumes p q := by
  obtain ⟨l', fs, hl', hrest, hlog, hpay⟩ := (h.resumed hlast).run config c hacc hfit
    (by rw [← h.log] at hlen; exact hlen)
  have hlog : l'.log = l.log ++ ((m.reopen.system c).run config (appends after)).2 := by
    rw [hlog, ← h.log]
    rfl
  have hqfs : q = encodeAll fs := by
    rw [hq, hrest]
    exact h.bytesBehind hl'.ok hl'.tornAnd_mem
  have hq0 : q = [] ↔ fs = [] := by
    constructor
    · intro h0
      by_contra hne
      have := length_encodeAll_of_ne_nil hne
      rw [← hqfs, h0] at this
      cases this
    · intro h0
      rw [hqfs, h0]
      rfl
  have htorn : m.active.torn = p := by
    rw [h.ledger]
    rfl
  have hclean : ∀ f ∈ m.older, f.torn = [] := by
    rw [h.ledger]
    exact fun f hf => (h.session.sound.room c e).clean f (mem_append_left _ hf)
  have hafter : m.active.after = [] := by
    rw [h.ledger]
    rfl
  have hread := hl'.readFrom_iff c hclean hafter (h.readable _ m.active_mem)
    (by rw [htorn, ← hqfs]; exact hu)
  rw [htorn, ← hqfs, ← hq0] at hread
  rw [Regained, ← hlog, hrest]
  constructor
  · rintro ⟨-, -, w, hw, hr⟩
    obtain rfl : l'.wal c = w := Option.some.inj hw
    exact hread.1 hr
  · intro hr
    exact ⟨hpay, hl'.numbered.ascending, l'.wal c, rfl, hread.2 hr⟩

theorem Torn.regained_nil (h : Torn c l e k p m) (config : Option Config) :
    Regained config c l m [] := by
  have hasc := h.session.numbered.ascending
  have hlog : m.reopen.log = l.log := h.log
  have hread := readFrom_zero c (l := m.reopen) (h.ok.congr rfl) (hlog ▸ hasc) rfl h.readable
  rw [hlog] at hread
  have hrest : (m.reopen.system c).run config (appends []) = (m.reopen.system c, []) := rfl
  rw [Regained, hrest, append_nil]
  exact ⟨rfl, hasc, m.reopen.wal c, rfl, hread⟩

/-- If the torn bytes stand alone in a new file, `New` starts again with offset zero. -/
theorem Torn.not_regained_cons (h : Torn c l e k p m) (config : Option Config)
    (hlast : ¬ (l.room c e).LastHolds) {a : OpType × Bytes} (hacc : a.1 = opCheckpoint ∨ a.2 ≠ [])
    (as : List (OpType × Bytes)) : ¬ Regained config c l m (a :: as) := by
  rintro ⟨-, hasc, -⟩
  obtain ⟨hheld, hne⟩ : (l.room c e).active.held = [] ∧ (l.room c e).log ≠ [] := by
    simpa [LastHolds] using hlast
  rw [log_room] at hne
  have hnext : m.reopen.next = 0 := by
    show offsetAfter (lastOffset m.active.held) = 0
    rw [h.ledger, held_tear, hheld]
    rfl
  obtain ⟨e, he, hcons⟩ :=
    run_append_cons config c (l := m.reopen) (h.ok.congr rfl) rfl rfl hacc (appends as)
  obtain ⟨x, hx⟩ := exists_mem_of_ne_nil _ hne
  have hmem : e ∈ ((m.reopen.system c).run config (appends (a :: as))).2 := by
    have hops : appends (a :: as) = .append a.1 a.2 none :: appends as := rfl
    rw [hops, hcons]
    exact mem_cons_self ..
  have hlt : x.offset < e.offset := (pairwise_append.1 hasc).2.2 x hx e hmem
  have hpos := h.session.ok.nonneg x hx
  have hzero : e.offset = 0 := by rw [he, hnext]
  omega

theorem Torn.lastHolds_iff (h : Torn c l e k p m) :
    (l.room c e).LastHolds ↔ l.log = [] ∨ (l.wal c).full (encodeEntry e) = false := by
  by_cases hf : l.full c e
  · have hfull : (l.wal c).full (encodeEntry e) = true := hf
    rw [room, if_pos hf, hfull, LastHolds, log_rotate]
    constructor
    · intro hlast
      exact .inl (hlast rfl)
    · rintro (hnil | hfalse) -
      · exact hnil
      · cases hfalse
  · rw [room, if_neg hf]
    exact ⟨fun _ => .inr (by simpa [full] using hf), fun _ => h.session.lastHolds⟩

end Torn

/-- The log is recovered exactly when the torn bytes do not stand alone in a new file behind others
with entries, and every magic number in them announces a record that fits the window and the rest of
the file, unless nothing follows. A torn record that is too long for the window is left out: `New`
fails on it as soon as its header is complete. -/
theorem recovered_iff (config : Option Config) (c : Config) (hc : Config.checked config = .ok c)
    (before after : List (OpType × Bytes)) (torn : OpType × Bytes) (k : Nat)
    (hacc : ∀ p ∈ torn :: (before ++ after), p.1 = opCheckpoint ∨ p.2 ≠ [])
    (hfit : ∀ p ∈ torn :: (before ++ after), entryHeaderSize + p.2.length ≤ windowSize)
    (hlen : before.length + after.length < 2 ^ 63) (hk : k < entryHeaderSize + torn.2.length)
    (d₀ : Disk) (w₀ : WAL)
    (hs : (System.init.run config (.new :: appends before)).1 = ⟨d₀, some w₀⟩) (p q : Bytes)
    (hp : p = (encodeEntry (w₀.tornEntry torn)).take k)
    (hq : q = bytesBehind d₀ (System.init.run config (tornRun before torn k after)).1.disk
      (w₀.tornFile (w₀.tornEntry torn)) k)
    (hu : Unaccepted p q) :
    Recovered config before torn k after ↔
      (before = [] ∨ after = [] ∨ w₀.full (encodeEntry (w₀.tornEntry torn)) = false) ∧
        (q = [] ∨ Resumes p q) := by
  obtain ⟨l, hl, hpay, hrun⟩ := run_before hc
    (fun x hx => hacc x (mem_cons_of_mem _ (mem_append_left _ hx)))
    (fun x hx => hfit x (mem_cons_of_mem _ (mem_append_left _ hx))) (by omega)
  have haccA : ∀ x ∈ after, x.1 = opCheckpoint ∨ x.2 ≠ [] :=
    fun x hx => hacc x (mem_cons_of_mem _ (mem_append_right _ hx))
  have hfitA : ∀ x ∈ after, entryHeaderSize + x.2.length ≤ windowSize :=
    fun x hx => hfit x (mem_cons_of_mem _ (mem_append_right _ hx))
  rw [hrun] at hs
  obtain ⟨rfl, rfl⟩ : l.disk = d₀ ∧ l.wal c = w₀ := by
    cases hs
    exact ⟨rfl, rfl⟩
  obtain ⟨e, he⟩ : ∃ e, e = (l.wal c).tornEntry torn := ⟨_, rfl⟩
  rw [← he] at hp hq ⊢
  have ht : Torn c l e k p ((l.room c e).tear p) := by
    refine ⟨hl, ?_, he ▸ hfit torn (mem_cons_self ..), ?_, hp, rfl⟩
    · rw [he]
      rfl
    · rw [length_encodeEntry, he]
      exact hk
  generalize (l.room c e).tear p = m at ht
  have hwhole : System.init.run config (tornRun before torn k after) =
      (((m.reopen.system c).run config (appends after)).1,
        l.log ++ ((m.reopen.system c).run config (appends after)).2) := by
    have htorn := run_torn hc hl ht.offset (he ▸ hacc torn (mem_cons_self ..)) ht.fits ht.short
      (appends after)
    rw [← ht.bytes, ← ht.ledger] at htorn
    rw [tornRun, run_append, hrun, ← htorn, he]
    rfl
  have hregained : Recovered config before torn k after ↔ Regained config c l m after := by
    rw [Recovered, hwhole, Regained, map_append, hpay, append_cancel_left_eq]
  have hbefore : l.log = [] ↔ before = [] := by rw [← hpay, map_eq_nil_iff]
  have hlog : l.log.length + after.length < 2 ^ 63 := by
    rw [← hpay, length_map] at hlen
    exact hlen
  rw [hwhole] at hq
  rw [hregained, ← hbefore]
  by_cases hlast : (l.room c e).LastHolds
  · have hor := ht.lastHolds_iff.1 hlast
    rw [ht.regained_iff config hlast haccA hfitA hlog hq hu]
    exact ⟨fun hr => ⟨hor.imp_right .inr, hr⟩, fun hr => hr.2⟩
  · have hnor := mt ht.lastHolds_iff.2 hlast
    cases after with
    | nil =>
      have hmem : tornAnd m [] ∈ m.reopen.files := by
        have heq : tornAnd m [] = m.active := by
          rw [ht.ledger]
          rfl
        rw [heq]
        exact m.active_mem
      have hq0 : q = [] := hq.trans (ht.bytesBehind (ht.ok.congr rfl) hmem)
      exact ⟨fun _ => ⟨.inr (.inl rfl), .inl hq0⟩, fun _ => ht.regained_nil config⟩
    | cons a as =>
      refine ⟨fun hr => absurd hr
        (ht.not_regained_cons config hlast (haccA a (mem_cons_self ..)) as), ?_⟩
      rintro ⟨h | h | h, -⟩
      · exact absurd (.inl h) hnor
      · cases h
      · exact absurd (.inr h) hnor

end Recovery

def roomyConfig : Config := ⟨"wal", 1000, false⟩

def firstRecord : Bytes := encodeEntry ⟨0, opPut, [1]⟩

def firstWAL : WAL := ⟨roomyConfig, [], ⟨1, .opened, 20, 0, 0⟩, 1, false⟩

/-- Five bytes of a record are left, whose header ends in the next record and announces a short one.
-/
theorem recovered_shortTear :
    Recovered (some roomyConfig) [(opPut, [1])] (opPut, [2]) 5 [(opPut, [3])] :=
  (recovered_iff (some roomyConfig) roomyConfig rfl [(opPut, [1])] [(opPut, [3])] (opPut, [2]) 5
    (by simp) (by decide) (by decide) (by decide) [(1, firstRecord)] firstWAL (by decide +kernel)
    ((encodeEntry ⟨1, opPut, [2]⟩).take 5) (encodeEntry ⟨1, opPut, [3]⟩) rfl (by decide +kernel)
    (by decide +kernel)).2 (by decide +kernel)

def longData : Bytes := List.replicate 21 0

/-- The run in which a whole header is left, which announces more than is appended behind it. -/
def longTearRun : System × List Entry :=
  System.init.run (some roomyConfig) (tornRun [(opPut, [1])] (opPut, longData) 19 [(opPut, [3])])

theorem not_recovered_longTear :
    Unaccepted ((encodeEntry ⟨1, opPut, longData⟩).take 19) (encodeEntry ⟨1, opPut, [3]⟩) ∧
      ¬ Recovered (some roomyConfig) [(opPut, [1])] (opPut, longData) 19 [(opPut, [3])] := by
  refine ⟨by decide +kernel, ?_⟩
  rintro ⟨-, -, w, hw, hread⟩
  have hw : longTearRun.1.wal = some w := hw
  have hread : readFrom w longTearRun.1.disk 0 = (longTearRun.2, none) := hread
  have hlost : longTearRun.1.wal.map (fun w => (readFrom w longTearRun.1.disk 0).1.length) = some 1 := by
    decide +kernel
  have hacked : longTearRun.2.length = 2 := by decide +kernel
  rw [hw, map_some, hread] at hlost
  exact absurd (hacked.symm.trans (Option.some.inj hlost)) (by decide)

end Solocoder.Wal
