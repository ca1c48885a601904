import Mathlib.Data.List.GetD
import Solocoder.WAL.Log

/-!
# Scanning a segment file

A record that fits the window of the reader is found again, a longer one stops the reader. Torn
bytes are skipped one by one unless a magic number in them announces a record that the file does not
hold.
-/

namespace Solocoder.Wal

open Lib List

/-! ## The codec -/

variable {bs : Bytes} {n : Nat} {e : Entry} {es : List Entry}
  {ts : List (Turn Entry DecodeErr ReadErr)}

theorem slice_eq (a b c : Bytes) {i j : Nat} (hbs : bs = a ++ (b ++ c)) (hi : a.length = i)
    (hj : i + b.length = j) : slice bs i j = b := by
  subst hbs hi hj
  rw [slice, ← append_assoc, ← length_append, take_left, drop_left]

theorem slice_take {i j : Nat} (h : j ≤ n) : slice (bs.take n) i j = slice bs i j := by
  rw [slice, slice, take_take, Nat.min_eq_left h]

@[simp] theorem length_encodeEntry (e : Entry) :
    (encodeEntry e).length = entryHeaderSize + e.data.length := by
  simp [encodeEntry, checksumPayload, entryHeaderSize]
  omega

/-- The fields of bytes that begin with the record of `e`. -/
structure Fields (e : Entry) (bs : Bytes) : Prop where
  magic : slice bs 0 2 = putBE 2 magicNumber
  checksum : slice bs 2 6 = putBE 4 (checksumIEEE (checksumPayload e)).toNat
  offset : slice bs 6 14 = putBE 8 (uint64 e.offset)
  type : slice bs 14 15 = [e.type]
  getType : bs.getD 14 0 = e.type
  dataLen : slice bs 15 19 = putBE 4 e.data.length
  data : slice bs 19 (19 + e.data.length) = e.data

theorem encodeEntry_fields (e : Entry) (rest : Bytes) : Fields e (encodeEntry e ++ rest) := by
  obtain ⟨m, hm⟩ : ∃ m, m = putBE 2 magicNumber := ⟨_, rfl⟩
  obtain ⟨c, hc⟩ : ∃ c, c = putBE 4 (checksumIEEE (checksumPayload e)).toNat := ⟨_, rfl⟩
  obtain ⟨o, ho⟩ : ∃ o, o = putBE 8 (uint64 e.offset) := ⟨_, rfl⟩
  obtain ⟨l, hl⟩ : ∃ l, l = putBE 4 e.data.length := ⟨_, rfl⟩
  have hm2 : m.length = 2 := by rw [hm, length_putBE]
  have hc4 : c.length = 4 := by rw [hc, length_putBE]
  have ho8 : o.length = 8 := by rw [ho, length_putBE]
  have hl4 : l.length = 4 := by rw [hl, length_putBE]
  have heq : encodeEntry e ++ rest = m ++ (c ++ (o ++ ([e.type] ++ (l ++ (e.data ++ rest))))) := by
    simp [encodeEntry, checksumPayload, hm, hc, ho, hl]
  rw [heq]
  refine ⟨?_, ?_, ?_, ?_, ?_, ?_, ?_⟩
  · rw [← hm]
    exact slice_eq [] m _ (nil_append _).symm rfl (by omega)
  · rw [← hc]
    exact slice_eq m c _ rfl hm2 (by omega)
  · rw [← ho]
    exact slice_eq (m ++ c) o ([e.type] ++ (l ++ (e.data ++ rest))) (by simp) (by simp; omega) (by omega)
  · exact slice_eq (m ++ c ++ o) [e.type] (l ++ (e.data ++ rest)) (by simp) (by simp; omega) (by simp)
  · rw [← append_assoc, ← append_assoc, getD_append_right _ _ _ _ (by simp; omega)]
    have h14 : 14 - (m ++ c ++ o).length = 0 := by simp; omega
    rw [h14]
    rfl
  · rw [← hl]
    exact slice_eq (m ++ c ++ o ++ [e.type]) l (e.data ++ rest) (by simp) (by simp; omega) (by omega)
  · exact slice_eq (m ++ c ++ o ++ [e.type] ++ l) e.data rest (by simp) (by simp; omega) rfl

theorem int64_of_bounds {n : Int} (h : -2 ^ 63 ≤ n) (h' : n < 2 ^ 63) : int64 n = n := by
  rw [int64, Int.bmod_eq_of_le (by omega) (by omega)]

theorem int64_uint64 {n : Int} (h : -2 ^ 63 ≤ n) (h' : n < 2 ^ 63) : int64 (uint64 n) = n := by
  have hpos : 0 ≤ n % 2 ^ 64 := Int.emod_nonneg n (by decide)
  rw [uint64, Int.toNat_of_nonneg hpos]
  show Int.bmod (n % (2 ^ 64 : Nat)) (2 ^ 64) = n
  rw [Int.emod_bmod]
  exact int64_of_bounds h h'

theorem uint64_lt (n : Int) : uint64 n < 256 ^ 8 := by
  rw [uint64]
  omega

/-- An entry that a record can hold: an `int64` as offset and a length that fits its field. -/
structure Entry.Encodable (e : Entry) : Prop where
  lower : -2 ^ 63 ≤ e.offset
  upper : e.offset < 2 ^ 63
  dataLen : e.data.length < 2 ^ 32

theorem decodeEntry_encodeEntry (he : e.Encodable) (rest : Bytes) :
    decodeEntry (encodeEntry e ++ rest) = .ok (e, entryHeaderSize + e.data.length) := by
  have hf := encodeEntry_fields e rest
  have hlen : (encodeEntry e ++ rest).length = entryHeaderSize + e.data.length + rest.length := by
    simp
  generalize encodeEntry e ++ rest = bs at hf hlen
  have hdl : getBE (slice bs 15 19) = e.data.length := by
    rw [hf.dataLen, getBE_putBE_of_lt (by have := he.dataLen; omega)]
  have hmagic : getBE (slice bs 0 2) = magicNumber := by
    rw [hf.magic]
    rfl
  have hpayload : slice bs 6 14 ++ slice bs 14 15 ++ slice bs 15 19 ++
      slice bs 19 (entryHeaderSize + e.data.length) = checksumPayload e := by
    show _ ++ slice bs 19 (19 + e.data.length) = _
    rw [hf.offset, hf.type, hf.dataLen, hf.data]
    simp [checksumPayload]
  have hsum : (checksumIEEE (checksumPayload e)).toNat = getBE (slice bs 2 6) := by
    rw [hf.checksum, getBE_putBE_of_lt]
    exact (checksumIEEE (checksumPayload e)).toNat_lt
  have hoff : int64 (getBE (slice bs 6 14)) = e.offset := by
    rw [hf.offset, getBE_putBE_of_lt (uint64_lt e.offset), int64_uint64 he.lower he.upper]
  have hdata : slice bs 19 (entryHeaderSize + e.data.length) = e.data := hf.data
  rw [decodeEntry, if_neg (by omega), if_neg (by simp [hmagic]), hdl, if_neg (by omega), hpayload,
    if_neg (by simp [hsum]), hoff, hf.getType, hdata]

theorem decodeEntry_ok (h : decodeEntry bs = .ok (e, n)) :
    n = entryHeaderSize + getBE (slice bs 15 19) ∧ n = entryHeaderSize + e.data.length ∧
      n ≤ bs.length := by
  simp only [decodeEntry] at h
  split_ifs at h with h19 hmagic htotal hsum
  have hlen := congrArg List.length (congrArg Entry.data (congrArg Prod.fst (Except.ok.inj h)))
  have hn := congrArg Prod.snd (Except.ok.inj h)
  simp only [slice, length_drop, length_take, entryHeaderSize] at hlen hn htotal ⊢
  omega

theorem take_append_slice {i j : Nat} (h : i ≤ j) : bs.take i ++ slice bs i j = bs.take j := by
  rw [slice, ← Nat.min_eq_left h, ← take_take, Nat.min_eq_left h, take_append_drop]

theorem putBE_slice (i k : Nat) (h : i + k ≤ bs.length) :
    putBE k (getBE (slice bs i (i + k))) = slice bs i (i + k) := by
  have hlen : (slice bs i (i + k)).length = k := by
    rw [slice, length_drop, length_take]
    omega
  have h := putBE_getBE (slice bs i (i + k))
  rwa [hlen] at h

theorem putBE_uint64 (h : 14 ≤ bs.length) :
    putBE 8 (uint64 (int64 (getBE (slice bs 6 14)))) = slice bs 6 14 := by
  have hs : putBE 8 (getBE (slice bs 6 14)) = slice bs 6 14 := putBE_slice 6 8 h
  have hb := getBE_putBE 8 (getBE (slice bs 6 14))
  rw [hs] at hb
  have hu : uint64 (int64 (getBE (slice bs 6 14))) = getBE (slice bs 6 14) := by
    have hmod : int64 (getBE (slice bs 6 14)) % 2 ^ 64 = getBE (slice bs 6 14) % 2 ^ 64 :=
      Int.bmod_emod
    rw [uint64, hmod]
    omega
  rw [hu, hs]

theorem encodeEntry_of_decodeEntry (h : decodeEntry bs = .ok (e, n)) : encodeEntry e = bs.take n := by
  obtain ⟨hn, hlen, -⟩ := decodeEntry_ok h
  simp only [decodeEntry, ← hn] at h
  split_ifs at h with h19 hmagic _ hsum
  obtain rfl := congrArg Prod.fst (Except.ok.inj h)
  have h19 : 19 ≤ bs.length := Nat.le_of_not_lt h19
  have hdl : putBE 4 (slice bs 19 n).length = slice bs 15 19 := by
    rw [← putBE_slice 15 4 h19]
    congr 1
    exact Nat.add_left_cancel (hlen.symm.trans hn)
  have htype : [bs.getD 14 0] = slice bs 14 15 := by
    rw [slice, drop_take, drop_eq_getElem_cons (by omega), getD_eq_getElem _ _ (by omega)]
    rfl
  have hpay : checksumPayload ⟨int64 (getBE (slice bs 6 14)), bs.getD 14 0, slice bs 19 n⟩ =
      slice bs 6 14 ++ slice bs 14 15 ++ slice bs 15 19 ++ slice bs 19 n := by
    rw [checksumPayload, putBE_uint64 (by omega), hdl, ← htype, append_assoc _ [_], singleton_append]
  rw [encodeEntry, hpay, Decidable.not_not.1 hsum, putBE_slice 2 4 (by omega),
    ← Decidable.not_not.1 hmagic, putBE_slice 0 2 (by omega)]
  simp only [← append_assoc]
  have hn19 : 19 ≤ n := hlen ▸ Nat.le_add_right _ _
  show bs.take 2 ++ _ ++ _ ++ _ ++ _ ++ _ = _
  rw [take_append_slice, take_append_slice, take_append_slice, take_append_slice, take_append_slice hn19]
  all_goals decide

/-! ## One turn of the reader -/

/-- The size that a header gives for its entry. -/
def announced (bs : Bytes) : Nat := entryHeaderSize + getBE (slice bs 15 19)

theorem peek_of_le (hw : n ≤ windowSize) (hn : n ≤ bs.length) : peek bs n = (bs.take n, none) := by
  rw [peek, if_neg (by omega), if_neg (by omega)]

theorem peek_of_short (hw : n ≤ windowSize) (hn : bs.length < n) : peek bs n = (bs, some .eof) := by
  rw [peek, if_neg (by omega), if_pos hn]

theorem peek_of_window (hw : windowSize < n) :
    peek bs n = (bs.take windowSize, some .bufferFull) := by
  rw [peek, if_pos hw]

theorem decodeEntry_take (bs : Bytes) : decodeEntry (bs.take (announced bs)) = decodeEntry bs := by
  by_cases hle : bs.length ≤ announced bs
  · rw [take_of_length_le hle]
  have h19 : 19 ≤ announced bs := Nat.le_add_right _ _
  have hlen : (bs.take (announced bs)).length = announced bs :=
    length_take_of_le (by omega)
  have hslice : ∀ i j, j ≤ 19 → slice (bs.take (announced bs)) i j = slice bs i j :=
    fun i j hj => slice_take (by omega)
  have hget : (bs.take (announced bs)).getD 14 0 = bs.getD 14 0 := by
    rw [getD_eq_getElem?_getD, getD_eq_getElem?_getD, getElem?_take_of_lt (by omega)]
  have hann : entryHeaderSize + getBE (slice bs 15 19) = announced bs := rfl
  have hdata : slice (bs.take (announced bs)) 19 (announced bs) = slice bs 19 (announced bs) :=
    slice_take (Nat.le_refl _)
  have h1 : ¬ announced bs < entryHeaderSize := Nat.not_lt.2 h19
  have h2 : ¬ bs.length < entryHeaderSize := fun h => h1 (by omega)
  have h3 : ¬ bs.length < announced bs := by omega
  simp only [decodeEntry, hlen, hget, hslice, Nat.reduceLeDiff, hann, hdata, h1, h2, h3,
    Nat.lt_irrefl, if_false]

theorem streamScanEntry_eq (bs : Bytes) : streamScanEntry bs =
      if bs.length < entryHeaderSize then .stop .eof
      else if getBE (slice bs 0 2) ≠ magicNumber then .skip (.invalidMagic (getBE (slice bs 0 2))) 1
      else if windowSize < announced bs then .stop .bufferFull
      else if bs.length < announced bs then .stop .eof
      else decodedTurn (announced bs) (decodeEntry bs) := by
  have hw : entryHeaderSize ≤ windowSize := by decide
  rw [streamScanEntry]
  by_cases h19 : bs.length < entryHeaderSize
  · rw [if_pos h19, peek_of_short hw h19, if_pos h19]
    rfl
  rw [peek_of_le hw (by omega), if_neg (by rw [length_take]; omega)]
  have hmagic : slice (bs.take entryHeaderSize) 0 2 = slice bs 0 2 := slice_take (by decide)
  have hlen : slice (bs.take entryHeaderSize) 15 19 = slice bs 15 19 := slice_take (by decide)
  rw [hmagic, hlen]
  have hann : entryHeaderSize + getBE (slice bs 15 19) = announced bs := rfl
  simp only [hann]
  split_ifs with hmagic hshort hwin hend hwin hend
  · rfl
  · rw [peek_of_window hwin]
    rfl
  · rw [peek_of_short (by omega) hend]
    rfl
  · rw [peek_of_le (by omega) (by omega), length_take] at hshort
    omega
  · rw [peek_of_window hwin, length_take] at hshort
    omega
  · rw [peek_of_short (by omega) hend] at hshort
    exact absurd hend hshort
  · rw [peek_of_le (by omega) (by omega), take_take, Nat.min_self, decodeEntry_take]

def Entry.Fits (e : Entry) : Prop := entryHeaderSize + e.data.length ≤ windowSize

instance (e : Entry) : Decidable e.Fits := inferInstanceAs (Decidable (_ ≤ _))

theorem announced_encodeEntry (he : e.Encodable) (rest : Bytes) :
    announced (encodeEntry e ++ rest) = entryHeaderSize + e.data.length := by
  rw [announced, (encodeEntry_fields e rest).dataLen,
    getBE_putBE_of_lt (by have := he.dataLen; omega)]

/-- `encodeEntry` and `decodeEntry` are inverse to each other, and no record is a proper beginning of
another. -/
theorem decodeEntry_inverts_encodeEntry : (∀ e : Entry, e.Encodable → ∀ rest,
      decodeEntry (encodeEntry e ++ rest) = .ok (e, (encodeEntry e).length)) ∧
    (∀ bs e n, decodeEntry bs = .ok (e, n) → n ≤ bs.length ∧ encodeEntry e = bs.take n) ∧
    ∀ e : Entry, e.Encodable → ∀ k < (encodeEntry e).length,
      ∃ err, decodeEntry ((encodeEntry e).take k) = .error err := by
  refine ⟨?_, ?_, ?_⟩
  · intro e he rest
    rw [decodeEntry_encodeEntry he, length_encodeEntry]
  · intro bs e n h
    exact ⟨(decodeEntry_ok h).2.2, encodeEntry_of_decodeEntry h⟩
  · intro e he k hk
    cases h : decodeEntry ((encodeEntry e).take k) with
    | error err => exact ⟨err, rfl⟩
    | ok r =>
      -- The length field lies within the prefix, so the prefix would hold the whole record.
      obtain ⟨hn, -, hle⟩ := decodeEntry_ok h
      have hk19 : 19 ≤ k := by
        have := length_take_le k (encodeEntry e)
        exact Nat.le_trans (hn ▸ Nat.le_add_right _ _) (hle.trans this)
      have hann := announced_encodeEntry he []
      rw [announced, append_nil, ← length_encodeEntry] at hann
      rw [slice_take hk19, hann] at hn
      rw [length_take] at hle
      omega

theorem decodeEntry_opPut : decodeEntry (encodeEntry ⟨7, opPut, [1, 2]⟩ ++ [9]) =
    .ok (⟨7, opPut, [1, 2]⟩, 21) :=
  decodeEntry_inverts_encodeEntry.1 _ ⟨by decide, by decide, by decide⟩ [9]

theorem magic_encodeEntry (e : Entry) (rest : Bytes) :
    getBE (slice (encodeEntry e ++ rest) 0 2) = magicNumber := by
  rfl

theorem streamScanEntry_encodeEntry (he : e.Encodable) (hf : e.Fits) (rest : Bytes) :
    streamScanEntry (encodeEntry e ++ rest) = .item e (encodeEntry e).length := by
  have hann := announced_encodeEntry he rest
  have hf : entryHeaderSize + e.data.length ≤ windowSize := hf
  rw [streamScanEntry_eq, hann, if_neg (by simp; omega), if_neg (by simp [magic_encodeEntry]),
    if_neg (by omega), if_neg (by simp), decodeEntry_encodeEntry he, length_encodeEntry]
  rfl

theorem streamScanEntry_large (he : e.Encodable) (hf : ¬ e.Fits) (rest : Bytes) :
    streamScanEntry (encodeEntry e ++ rest) = .stop .bufferFull := by
  have hann := announced_encodeEntry he rest
  have hf : ¬ entryHeaderSize + e.data.length ≤ windowSize := hf
  rw [streamScanEntry_eq, if_neg (by simp; omega), if_neg (by simp [magic_encodeEntry]),
    if_pos (by omega)]

theorem streamScanEntry_item (h : streamScanEntry bs = .item e n) :
    e.Fits ∧ n = entryHeaderSize + e.data.length ∧ n ≤ bs.length := by
  rw [streamScanEntry_eq] at h
  split_ifs at h with h19 hmagic hwin hend
  cases hd : decodeEntry bs with
  | error err =>
    rw [hd] at h
    cases h
  | ok r =>
    obtain ⟨e', m⟩ := r
    rw [hd] at h
    obtain ⟨rfl, rfl⟩ := Turn.item.inj h
    obtain ⟨hm, hlen, hle⟩ := decodeEntry_ok hd
    have hann : announced bs = m := hm.symm
    refine ⟨?_, by omega, by omega⟩
    show entryHeaderSize + _ ≤ windowSize
    omega

theorem streamScanEntry_skip {err : DecodeErr} (h : streamScanEntry bs = .skip err n) :
    n = 1 ∧ entryHeaderSize ≤ bs.length := by
  rw [streamScanEntry_eq] at h
  split_ifs at h with h19 hmagic hwin hend
  · exact ⟨(Turn.skip.inj h).2.symm, by omega⟩
  · cases hd : decodeEntry bs with
    | error err =>
      rw [hd] at h
      exact ⟨(Turn.skip.inj h).2.symm, by omega⟩
    | ok r =>
      rw [hd] at h
      cases h

theorem streamScanEntry_progress : Progress streamScanEntry where
  item h := by
    obtain ⟨-, hn, hle⟩ := streamScanEntry_item h
    exact ⟨by rw [hn]; exact Nat.add_pos_left (by decide) _, hle⟩
  skip h := by
    obtain ⟨rfl, h19⟩ := streamScanEntry_skip h
    exact ⟨Nat.one_pos, Nat.le_trans (by decide) h19⟩

/-! ## A whole file -/

/-- The entries of a file, or the error that the reader stops with. -/
def outcome : List (Turn Entry DecodeErr ReadErr) → Except ReadErr (List Entry)
  | .item e _ :: ts => (outcome ts).map (e :: ·)
  | .skip _ _ :: ts => outcome ts
  | .stop .bufferFull :: _ => .error .bufferFull
  | .stop .eof :: _ => .ok []
  | [] => .ok []

def encodeAll (es : List Entry) : Bytes := es.flatMap encodeEntry

theorem encodeAll_append (es fs : List Entry) :
    encodeAll (es ++ fs) = encodeAll es ++ encodeAll fs := flatMap_append

theorem encodeAll_concat (es : List Entry) (e : Entry) :
    encodeAll (es ++ [e]) = encodeAll es ++ encodeEntry e := by
  simp [encodeAll]

def items (es : List Entry) : List (Turn Entry DecodeErr ReadErr) :=
  es.map fun e => .item e (encodeEntry e).length

theorem scan_encodeAll (hes : ∀ e ∈ es, e.Encodable ∧ e.Fits) (rest : Bytes) :
    scan (encodeAll es ++ rest) = items es ++ scan rest :=
  turns_flatMap streamScanEntry_progress fun e he tail =>
    streamScanEntry_encodeEntry (hes e he).1 (hes e he).2 tail

theorem outcome_items (es : List Entry) (ts : List (Turn Entry DecodeErr ReadErr)) :
    outcome (items es ++ ts) = (outcome ts).map (es ++ ·) := by
  induction es with
  | nil =>
    show outcome ts = _
    cases outcome ts <;> rfl
  | cons e es ih =>
    show (outcome (items es ++ ts)).map (e :: ·) = _
    rw [ih]
    cases outcome ts <;> rfl

theorem outcome_skips (ws : List DecodeErr) (ts : List (Turn Entry DecodeErr ReadErr)) :
    outcome ((ws.map fun w => .skip w 1) ++ ts) = outcome ts := by
  induction ws with
  | nil => rfl
  | cons w ws ih => exact ih

theorem scan_nil : scan [] = [.stop .eof] := rfl

theorem scan_clean (hes : ∀ e ∈ es, e.Encodable ∧ e.Fits) :
    scan (encodeAll es) = items es ++ [.stop .eof] := by
  rw [← append_nil (encodeAll es), scan_encodeAll hes, scan_nil]

theorem outcome_clean (hes : ∀ e ∈ es, e.Encodable ∧ e.Fits) :
    outcome (scan (encodeAll es)) = .ok es := by
  rw [scan_clean hes, outcome_items]
  show Except.ok (es ++ []) = _
  rw [append_nil]

/-- Records that all fit their length field are read back, or the reader stops at one that does not
fit its window. -/
theorem outcome_encodable (hes : ∀ e ∈ es, e.Encodable) : outcome (scan (encodeAll es)) = .ok es ∨
      outcome (scan (encodeAll es)) = .error .bufferFull := by
  induction es with
  | nil => exact .inl rfl
  | cons e es ih =>
    have he := hes e (mem_cons_self ..)
    show outcome (turns streamScanEntry (encodeEntry e ++ encodeAll es)) = _ ∨
      outcome (turns streamScanEntry (encodeEntry e ++ encodeAll es)) = _
    by_cases hf : e.Fits
    · rw [turns_of_item streamScanEntry_progress (streamScanEntry_encodeEntry he hf _), drop_left]
      show (outcome (scan (encodeAll es))).map _ = _ ∨ (outcome (scan (encodeAll es))).map _ = _
      rcases ih fun x hx => hes x (mem_cons_of_mem e hx) with h | h
      · rw [h]
        exact .inl rfl
      · rw [h]
        exact .inr rfl
    · rw [turns_of_stop (streamScanEntry_large he hf _)]
      exact .inr rfl

theorem mem_of_outcome (h : outcome ts = .ok es) (he : e ∈ es) : ∃ n, .item e n ∈ ts := by
  induction ts generalizing es with
  | nil =>
    cases h
    cases he
  | cons t ts ih =>
    cases t with
    | item a n =>
      simp only [outcome] at h
      cases hts : outcome ts with
      | error err =>
        rw [hts] at h
        cases h
      | ok as =>
        rw [hts] at h
        obtain rfl : a :: as = es := Except.ok.inj h
        rcases mem_cons.1 he with rfl | he
        · exact ⟨n, mem_cons_self ..⟩
        · obtain ⟨m, hm⟩ := ih hts he
          exact ⟨m, mem_cons_of_mem _ hm⟩
    | skip w n =>
      obtain ⟨m, hm⟩ := ih h he
      exact ⟨m, mem_cons_of_mem _ hm⟩
    | stop err =>
      cases err with
      | eof =>
        cases h
        cases he
      | bufferFull => cases h

theorem outcome_fits (h : outcome (scan bs) = .ok es) (he : e ∈ es) : e.Fits := by
  obtain ⟨n, hn⟩ := mem_of_outcome h he
  obtain ⟨bs', hbs'⟩ := mem_turnsUpTo hn
  exact (streamScanEntry_item hbs').1

/-! ## Torn bytes -/

/-- Every magic number that begins in the torn bytes `p` announces a record that the window and the
rest of the file can hold. -/
def Resumes (p q : Bytes) : Prop :=
  ∀ i < p.length, getBE (slice ((p ++ q).drop i) 0 2) = magicNumber →
    announced ((p ++ q).drop i) ≤ windowSize ∧
      announced ((p ++ q).drop i) ≤ ((p ++ q).drop i).length

instance (p q : Bytes) : Decidable (Resumes p q) := Nat.decidableBallLT ..

/-- No entry is decoded from a place in `p`. -/
def Unaccepted (p q : Bytes) : Prop :=
  ∀ i < p.length, (decodeEntry ((p ++ q).drop i)).isOk = false

instance (p q : Bytes) : Decidable (Unaccepted p q) := Nat.decidableBallLT ..

theorem streamScanEntry_of_unaccepted (h19 : entryHeaderSize ≤ bs.length)
    (hd : (decodeEntry bs).isOk = false)
    (hr : getBE (slice bs 0 2) = magicNumber → announced bs ≤ windowSize ∧ announced bs ≤ bs.length)
    :
    ∃ w, streamScanEntry bs = .skip w 1 := by
  rw [streamScanEntry_eq, if_neg (by omega)]
  by_cases hm : getBE (slice bs 0 2) = magicNumber
  · rw [if_neg (by simp [hm]), if_neg (by omega), if_neg (by omega)]
    cases hdec : decodeEntry bs with
    | error err => exact ⟨err, rfl⟩
    | ok r =>
      rw [hdec] at hd
      cases hd
  · rw [if_pos hm]
    exact ⟨_, rfl⟩

theorem length_encodeAll_of_ne_nil (h : es ≠ []) : entryHeaderSize ≤ (encodeAll es).length := by
  obtain ⟨e, es, rfl⟩ := exists_cons_of_ne_nil h
  show _ ≤ (encodeEntry e ++ encodeAll es).length
  rw [length_append, length_encodeEntry]
  omega

section

variable (hes : ∀ e ∈ es, e.Encodable ∧ e.Fits)
include hes

theorem outcome_resumes {fs : List Entry} {p : Bytes}
    (hfs : ∀ e ∈ fs, e.Encodable ∧ e.Fits) (hne : fs ≠ []) (hu : Unaccepted p (encodeAll fs))
    (hr : Resumes p (encodeAll fs)) :
    outcome (scan (encodeAll es ++ (p ++ encodeAll fs))) = .ok (es ++ fs) := by
  have h19 := length_encodeAll_of_ne_nil hne
  obtain ⟨ws, hws⟩ := turns_skipped streamScanEntry_progress (p := p) (q := encodeAll fs)
    fun i hi => streamScanEntry_of_unaccepted (by simp; omega) (hu i hi) (hr i hi)
  have hp : scan (p ++ encodeAll fs) = _ := hws
  rw [scan_encodeAll hes, outcome_items, hp, outcome_skips]
  show (outcome (scan (encodeAll fs))).map _ = _
  rw [outcome_clean hfs]
  rfl

/-- Torn bytes with a magic number that announces too much hide all the records behind them. -/
theorem outcome_not_resumes {fs : List Entry} {p : Bytes}
    (hne : fs ≠ []) (hu : Unaccepted p (encodeAll fs)) (hr : ¬ Resumes p (encodeAll fs)) :
    outcome (scan (encodeAll es ++ (p ++ encodeAll fs))) = .ok es ∨
      outcome (scan (encodeAll es ++ (p ++ encodeAll fs))) = .error .bufferFull := by
  have h19 := length_encodeAll_of_ne_nil hne
  have hlen : ∀ i < p.length, entryHeaderSize ≤ ((p ++ encodeAll fs).drop i).length := by
    intro i hi
    rw [length_drop, length_append]
    omega
  -- the first magic number that announces too much
  have hex : ∃ j, j < p.length ∧ getBE (slice ((p ++ encodeAll fs).drop j) 0 2) = magicNumber ∧
      ¬ (announced ((p ++ encodeAll fs).drop j) ≤ windowSize ∧
        announced ((p ++ encodeAll fs).drop j) ≤ ((p ++ encodeAll fs).drop j).length) := by
    simpa [Resumes] using hr
  classical
  have hmin := fun i => Nat.find_min (m := i) hex
  obtain ⟨hj, hmagic, hbad⟩ := Nat.find_spec hex
  generalize Nat.find hex = j at hmin hj hmagic hbad
  have hbefore : ∀ i < j, ∃ w, streamScanEntry ((p ++ encodeAll fs).drop i) = .skip w 1 := by
    intro i hi
    refine streamScanEntry_of_unaccepted (hlen i (by omega)) (hu i (by omega)) fun hm => ?_
    by_contra hn
    exact hmin i hi ⟨by omega, hm, hn⟩
  obtain ⟨err, herr⟩ : ∃ err, streamScanEntry ((p ++ encodeAll fs).drop j) = .stop err := by
    rw [streamScanEntry_eq, if_neg (Nat.not_lt.2 (hlen j hj)), if_neg (by simp [hmagic])]
    split_ifs with hwin hend
    · exact ⟨_, rfl⟩
    · exact ⟨_, rfl⟩
    · exact absurd ⟨Nat.not_lt.1 hwin, Nat.not_lt.1 hend⟩ hbad
  obtain ⟨ws, hws⟩ := turns_stopped streamScanEntry_progress hj.le hbefore herr
  have hp : scan (p ++ encodeAll fs) = _ := hws
  rw [scan_encodeAll hes, outcome_items, hp, outcome_skips]
  cases err with
  | eof =>
    left
    show Except.ok (es ++ []) = _
    rw [append_nil]
  | bufferFull => exact .inr rfl

omit hes in
theorem streamScanEntry_torn {k : Nat} (he : e.Encodable) (hf : e.Fits)
    (hk : k < (encodeEntry e).length) : streamScanEntry ((encodeEntry e).take k) = .stop .eof := by
  have hlen : ((encodeEntry e).take k).length = k := length_take_of_le (by omega)
  rw [streamScanEntry_eq, hlen]
  by_cases h19 : k < entryHeaderSize
  · rw [if_pos h19]
  have h19' : 19 ≤ k := Nat.not_lt.1 h19
  have hann : announced ((encodeEntry e).take k) = entryHeaderSize + e.data.length := by
    rw [announced, slice_take h19', ← announced_encodeEntry he [], append_nil]
    rfl
  have hmagic := magic_encodeEntry e []
  rw [append_nil] at hmagic
  have hf : entryHeaderSize + e.data.length ≤ windowSize := hf
  rw [length_encodeEntry] at hk
  rw [if_neg h19, slice_take (by omega), if_neg (by simp [hmagic]), hann, if_neg (by omega), if_pos hk]

theorem outcome_torn {k : Nat} (he : e.Encodable) (hf : e.Fits) (hk : k < (encodeEntry e).length) :
    outcome (scan (encodeAll es ++ (encodeEntry e).take k)) = .ok es := by
  have hp : scan ((encodeEntry e).take k) = _ := turns_of_stop (streamScanEntry_torn he hf hk)
  rw [scan_encodeAll hes, outcome_items, hp]
  show Except.ok (es ++ []) = _
  rw [append_nil]

end

/-! ## The loops over a file -/

theorem entriesLoop_eq (minOffset : Int) (ts : List (Turn Entry DecodeErr ReadErr))
    (acc : List Entry) :
    entriesLoop minOffset ts acc =
      (outcome ts).map fun es => acc ++ es.filter fun e => minOffset ≤ e.offset := by
  induction ts generalizing acc with
  | nil => simp [entriesLoop, outcome, Except.map]
  | cons t ts ih =>
    cases t with
    | item e n =>
      rw [entriesLoop, outcome, ih]
      cases outcome ts with
      | error err => rfl
      | ok es =>
        show Except.ok _ = Except.ok _
        split_ifs with h <;> simp [h]
    | skip w n => exact ih acc
    | stop err =>
      cases err with
      | eof => simp [entriesLoop, outcome, Except.map]
      | bufferFull => rfl

def firstOffset (es : List Entry) : Int := (es.head?.map Entry.offset).getD (-1)

def lastOffset (es : List Entry) : Int := (es.getLast?.map Entry.offset).getD (-1)

theorem firstOffset_concat (hes : ∀ e ∈ es, 0 ≤ e.offset) (e : Entry) :
    firstOffset (es ++ [e]) = if firstOffset es = -1 then e.offset else firstOffset es := by
  cases es with
  | nil => rfl
  | cons x xs =>
    have hx := hes x (mem_cons_self ..)
    have hfirst : firstOffset (x :: xs) = x.offset := rfl
    rw [if_neg (by omega)]
    rfl

theorem lastOffset_concat (es : List Entry) (e : Entry) : lastOffset (es ++ [e]) = e.offset := by
  simp [lastOffset]

def noteOffset (offsets : Int × Int) (e : Entry) : Int × Int :=
  (if offsets.1 = -1 then e.offset else offsets.1, e.offset)

theorem offsetsLoop_eq (ts : List (Turn Entry DecodeErr ReadErr)) (offsets : Int × Int) :
    offsetsLoop ts offsets = (outcome ts).map fun es => es.foldl noteOffset offsets := by
  induction ts generalizing offsets with
  | nil => rfl
  | cons t ts ih =>
    cases t with
    | item e n =>
      rw [offsetsLoop, outcome, ih]
      cases outcome ts <;> rfl
    | skip w n => exact ih offsets
    | stop err => cases err <;> rfl

theorem foldl_noteOffset (acc : List Entry) (hpos : ∀ e ∈ acc ++ es, 0 ≤ e.offset) :
    es.foldl noteOffset (firstOffset acc, lastOffset acc) =
      (firstOffset (acc ++ es), lastOffset (acc ++ es)) := by
  induction es generalizing acc with
  | nil =>
    rw [append_nil]
    rfl
  | cons e es ih =>
    have hacc : ∀ x ∈ acc, 0 ≤ x.offset := fun x hx => hpos x (mem_append_left _ hx)
    rw [append_cons] at hpos ⊢
    rw [foldl_cons, noteOffset, ← firstOffset_concat hacc, ← lastOffset_concat acc e, ih _ hpos]

section Recover

variable {σ : Type}

/-- The calls of a callback on a list of entries, up to the first one that returns an error. -/
def callAll (cb : RecoverCallback σ) : List Entry → σ → σ × Option String
  | [], s => (s, none)
  | e :: es, s =>
    match cb e s with
    | (s, some text) => (s, some text)
    | (s, none) => callAll cb es s

theorem callAll_append (cb : RecoverCallback σ) (es fs : List Entry) (s : σ) :
    callAll cb (es ++ fs) s =
      match callAll cb es s with
      | (s, some text) => (s, some text)
      | (s, none) => callAll cb fs s := by
  induction es generalizing s with
  | nil => rfl
  | cons e es ih =>
    rw [cons_append, callAll, callAll]
    rcases cb e s with ⟨s', _ | text⟩
    · exact ih s'
    · rfl

theorem recoverLoop_items (segID : Nat) (minOffset : Int) (cb : RecoverCallback σ)
    (es : List Entry) (pos : Nat) (ws : List CorruptedEntryWarning) (s : σ) :
    recoverLoop segID minOffset cb (items es ++ [.stop .eof]) pos ws s =
      let r := callAll cb (es.filter fun e => minOffset ≤ e.offset) s
      (r.1, ws, r.2.map Err.callback) := by
  induction es generalizing pos s with
  | nil => rfl
  | cons e es ih =>
    show recoverLoop segID minOffset cb (.item e _ :: (items es ++ [.stop .eof])) pos ws s = _
    rw [recoverLoop]
    by_cases h : minOffset ≤ e.offset
    · rw [if_pos h, filter_cons_of_pos (by simpa using h), callAll]
      rcases cb e s with ⟨s', _ | text⟩
      · exact ih _ s'
      · rfl
    · rw [if_neg h, filter_cons_of_neg (by simpa using h)]
      exact ih _ s

end Recover

end Solocoder.Wal
