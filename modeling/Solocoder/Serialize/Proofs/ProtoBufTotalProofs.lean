import Solocoder.Serialize.ProtoBuf

/-!
# What malformed data does to the Protocol Buffers decoder

The decoder adds lengths to its position as values of the type `int` before it compares them with
the data. It is compared with the one that adds them as integers.
-/

namespace Solocoder.Serialize.ProtoBuf

open Lib.Text List Run Decoder

variable {T α β : Type}

/-- A turn moves forward within the data, and a length that does not fit is rejected. -/
def Event.Sound : Event → Prop
  | .turn start stop size => 0 ≤ start ∧ start < stop ∧ stop ≤ size
  | .length pos size l rejected => 0 ≤ pos ∧ pos ≤ size ∧ (size < pos + l → rejected = true)

/-- A length that goes beyond the data. -/
def Event.Overlong : Event → Prop
  | .turn _ _ _ => False
  | .length pos size l _ => size < pos + l

/-- The sum of the position and the length is a value of the type `int`. -/
def Event.Small : Event → Prop
  | .turn _ _ _ => True
  | .length pos _ l _ => pos + l < 2 ^ 63

instance : DecidablePred Event.Small
  | .turn _ _ _ => inferInstanceAs (Decidable True)
  | .length pos _ l _ => inferInstanceAs (Decidable (pos + l < 2 ^ 63))

/-- All lengths met are small. -/
def Run.Small (r : Run α) : Prop := ∀ e ∈ r.trace, e.Small

instance (r : Run α) : Decidable r.Small := inferInstanceAs (Decidable (∀ e ∈ r.trace, e.Small))

/-- With any data a decoder returns or fails, every turn moves forward within the data, and a length
that does not fit is rejected as an invalid format. -/
structure Run.Total (r : Run α) : Prop where
  ends : (∃ a, r.out = .ok a) ∨ ∃ e, r.out = .err e
  sound : ∀ e ∈ r.trace, e.Sound
  rejects : (∃ e ∈ r.trace, e.Overlong) → ∃ e, r.out = .err e ∧ e.isInvalidFormat = true

/-- How a run ends that is total: with a value for which the condition holds, and no length that
does not fit, or with an error. -/
def Run.Ends (r : Run α) (Q : α → Prop) : Prop :=
  match r.out with
  | .ok a => Q a ∧ ∀ e ∈ r.trace, ¬ e.Overlong
  | .err err => (∃ e ∈ r.trace, e.Overlong) → err.isInvalidFormat = true
  | .panic => False
  | .timeout => False

/-- The exact run is total; the code does the same as long as lengths are small, and is unsound
otherwise. -/
structure Follows (r x : Run α) (Q : α → Prop) : Prop where
  sound : ∀ e ∈ x.trace, e.Sound
  ends : x.Ends Q
  same : x.Small → r = x
  breaks : ¬ x.Small → ∃ e ∈ r.trace, ¬ e.Sound

theorem Run.bind_of_ok {r : Run α} {a : α} (h : r.out = .ok a) (f : α → Run β) :
    r >>= f = ⟨r.trace ++ (f a).trace, (f a).out⟩ := by
  show r.bind f = _
  rw [bind, h]

theorem Run.trace_subset_bind (r : Run α) (f : α → Run β) : r.trace ⊆ (r >>= f).trace := by
  show r.trace ⊆ (r.bind f).trace
  unfold bind
  cases r.out with
  | ok a => exact subset_append_left _ _
  | _ => exact Subset.refl _

namespace Follows

variable {r x : Run α} {Q Q' : α → Prop} {R : β → Prop}

theorem mono (h : Follows r x Q) (hQ : ∀ a, Q a → Q' a) : Follows r x Q' := by
  refine { h with ends := ?_ }
  have hends := h.ends
  obtain ⟨_, a | _ | _ | _⟩ := x
  · exact ⟨hQ a hends.1, hends.2⟩
  all_goals exact hends

theorem bind {f g : α → Run β} (h : Follows r x Q) (hf : ∀ a, Q a → Follows (f a) (g a) R) :
    Follows (r >>= f) (x >>= g) R := by
  have hbreaks : ¬ x.Small → ∃ e ∈ (r >>= f).trace, ¬ e.Sound := by
    intro hsmall
    obtain ⟨e, he, hes⟩ := h.breaks hsmall
    exact ⟨e, r.trace_subset_bind f he, hes⟩
  obtain ⟨trace, a | err | _ | _⟩ := x
  · obtain ⟨hQ, hfit⟩ := h.ends
    have hg := hf a hQ
    have hx : ∀ k : α → Run β, (⟨trace, .ok a⟩ : Run α) >>= k =
      ⟨trace ++ (k a).trace, (k a).out⟩ := fun _ => rfl
    have hboth : Small ((⟨trace, .ok a⟩ : Run α) >>= g) ↔ Small ⟨trace, .ok a⟩ ∧ (g a).Small :=
      forall_mem_append
    refine ⟨forall_mem_append.mpr ⟨h.sound, hg.sound⟩, ?_, fun hsmall => ?_, fun hsmall => ?_⟩
    · -- the lengths of the first run fit, so an overlong one is of the second run
      have hmem : ∀ e ∈ trace ++ (g a).trace, e.Overlong → e ∈ (g a).trace := by
        intro e he hover
        exact (mem_append.mp he).resolve_left fun hx => hfit e hx hover
      have hga := hg.ends
      rw [hx]
      generalize g a = y at hga hmem ⊢
      obtain ⟨_, b | err | _ | _⟩ := y
      · exact ⟨hga.1, fun e he hover => hga.2 e (hmem e he hover) hover⟩
      · rintro ⟨e, he, hover⟩
        exact hga ⟨e, hmem e he hover, hover⟩
      all_goals exact hga
    · obtain ⟨hxs, hgs⟩ := hboth.mp hsmall
      rw [h.same hxs, hx, hg.same hgs, hx]
    · by_cases hxs : Small ⟨trace, .ok a⟩
      · obtain ⟨e, he, hes⟩ := hg.breaks fun hgs => hsmall (hboth.mpr ⟨hxs, hgs⟩)
        rw [h.same hxs, hx]
        exact ⟨e, mem_append_right _ he, hes⟩
      · exact hbreaks hxs
  · exact ⟨h.sound, h.ends, fun hsmall => by rw [h.same hsmall]; rfl, hbreaks⟩
  all_goals exact h.ends.elim

theorem of_trace_nil {out : Out α} (h : Ends ⟨[], out⟩ Q) : Follows ⟨[], out⟩ ⟨[], out⟩ Q :=
  ⟨nofun, h, fun _ => rfl, fun hsmall => absurd nofun hsmall⟩

theorem pure {a : α} (h : Q a) : Follows (Pure.pure a) (Pure.pure a) Q :=
  of_trace_nil ⟨h, nofun⟩

theorem fail (e : Err) : Follows (fail e) (fail e) Q :=
  of_trace_nil fun ⟨_, he, _⟩ => nomatch he

theorem turn {start stop size : Int} (h : 0 ≤ start ∧ start < stop ∧ stop ≤ size) :
    Follows (emit (.turn start stop size)) (emit (.turn start stop size)) fun _ => True where
  sound := forall_mem_singleton.mpr h
  ends := ⟨trivial, forall_mem_singleton.mpr id⟩
  same := fun _ => rfl
  breaks := fun hsmall => absurd (forall_mem_singleton.mpr trivial) hsmall

/-- The run of the code is total if and only if all lengths of the exact one are small. -/
theorem total_iff (h : Follows r x Q) : r.Total ↔ x.Small := by
  constructor
  · intro htotal
    by_contra hsmall
    obtain ⟨e, he, hes⟩ := h.breaks hsmall
    exact hes (htotal.sound e he)
  · intro hsmall
    rw [h.same hsmall]
    have hends := h.ends
    obtain ⟨_, a | err | _ | _⟩ := x
    · refine ⟨.inl ⟨a, rfl⟩, h.sound, ?_⟩
      rintro ⟨e, he, hover⟩
      exact absurd hover (hends.2 e he)
    · exact ⟨.inr ⟨err, rfl⟩, h.sound, fun hover => ⟨err, rfl, hends hover⟩⟩
    all_goals exact hends.elim

end Follows

/-- The sum without overflow. -/
def addExact (pos : Int) (l : Nat) : Int := pos + l

/-- `run`, given how lengths are added, follows the exact run. -/
abbrev Agrees (run : (Int → Nat → Int) → Run α) (Q : α → Prop) : Prop :=
  Follows (run addLength) (run addExact) Q

/-- The decoder is within its data, which has a length of the type `int`. -/
structure Decoder.Within (d : Decoder) : Prop where
  nonneg : 0 ≤ d.pos
  le_size : d.pos ≤ d.size
  size_lt : d.size < 2 ^ 63

/-- The decoder is over the same data, further on. -/
structure Decoder.After (d d' : Decoder) : Prop where
  data : d'.data = d.data
  lt : d.pos < d'.pos
  le_size : d'.pos ≤ d.size

variable {d d' : Decoder} (shape : Shape T)

theorem Decoder.After.size (h : d.After d') : d'.size = d.size := by
  rw [Decoder.size, h.data, Decoder.size]

theorem Decoder.After.within (h : d.After d') (hd : d.Within) : d'.Within := by
  have hlt := h.lt
  have hle := h.le_size
  have hnonneg := hd.nonneg
  have hsize := hd.size_lt
  exact ⟨by omega, by rw [h.size]; exact hle, by rw [h.size]; exact hsize⟩

theorem Decoder.After.trans {d1 d2 d3 : Decoder} (h1 : d1.After d2) (h2 : d2.After d3) :
    d1.After d3 := by
  have hlt1 := h1.lt
  have hlt2 := h2.lt
  have hle := h2.le_size
  rw [h1.size] at hle
  exact ⟨h2.data.trans h1.data, by omega, hle⟩

theorem readVarintLoop_follows (n shift result : Nat) (d : Decoder) (hd : d.Within) :
    Agrees (fun _ => readVarintLoop n shift result d) fun p => p.1 < 2 ^ 64 ∧ d.After p.2 := by
  induction n generalizing shift result d with
  | zero => exact .fail _
  | succ n ih =>
    unfold readVarintLoop
    split
    · exact .fail _
    · have hafter : d.After { d with pos := d.pos + 1 } :=
        ⟨rfl, by show d.pos < d.pos + 1; omega, by show d.pos + 1 ≤ d.size; omega⟩
      have hnonneg := hd.nonneg
      rw [if_neg (by omega)]
      dsimp only
      split
      · exact .pure ⟨Nat.mod_lt _ (by decide), hafter⟩
      · apply (ih _ _ _ (hafter.within hd)).mono
        intro p hp
        exact ⟨hp.1, hafter.trans hp.2⟩

theorem readVarint_follows (d : Decoder) (hd : d.Within) :
    Agrees (fun _ => readVarint d) fun p => p.1 < 2 ^ 64 ∧ d.After p.2 :=
  readVarintLoop_follows 10 0 0 d hd

theorem addLength_eq (pos : Int) (l : Nat) : addLength pos l = Int.bmod (pos + l) (2 ^ 64) :=
  Int.add_bmod_bmod

theorem addLength_of_small {pos : Int} {l : Nat} (hpos : 0 ≤ pos) (h : pos + l < 2 ^ 63) :
    addLength pos l = addExact pos l := by
  rw [addLength_eq]
  exact Int.bmod_eq_of_le (by omega) (by omega)

theorem addLength_lt {pos : Int} {l : Nat} (hpos : 0 ≤ pos) (hlt : pos < 2 ^ 63) (hl : l < 2 ^ 64)
    (h : ¬ pos + l < 2 ^ 63) : addLength pos l < pos := by
  rw [addLength_eq]
  unfold Int.bmod
  dsimp only
  split
  · omega
  · omega

theorem checkLength_eq (stop : Int) (l : Nat) (d : Decoder) :
    checkLength stop l d = ⟨[.length d.pos d.size l (stop > d.size)],
      if stop > d.size then .err .unexpectedEnd else .ok (stop, d)⟩ := by
  unfold checkLength
  split
  · rfl
  · rfl

theorem checkLength_follows (l : Nat) (hl : l < 2 ^ 64) (d : Decoder) (hd : d.Within) :
    Follows (checkLength (addLength d.pos l) l d) (checkLength (addExact d.pos l) l d) fun p =>
      p.2 = d ∧ d.pos ≤ p.1 ∧ p.1 ≤ d.size := by
  have hnonneg := hd.nonneg
  have hle := hd.le_size
  have hsize := hd.size_lt
  have hexact : addExact d.pos l = d.pos + l := rfl
  rw [checkLength_eq, checkLength_eq]
  refine ⟨forall_mem_singleton.mpr ⟨hnonneg, hle, decide_eq_true⟩, ?_, fun hsmall => ?_,
    fun hsmall => ?_⟩
  · by_cases hover : addExact d.pos l > d.size
    · rw [if_pos hover]
      exact fun _ => rfl
    · rw [if_neg hover]
      exact ⟨⟨rfl, by omega, by omega⟩, forall_mem_singleton.mpr hover⟩
  · rw [addLength_of_small hnonneg (hsmall _ (mem_singleton.mpr rfl))]
  · have hsum : ¬ d.pos + l < 2 ^ 63 := fun hsum => hsmall (forall_mem_singleton.mpr hsum)
    have hback := addLength_lt hnonneg (by omega) hl hsum
    refine ⟨_, mem_singleton.mpr rfl, ?_⟩
    rintro ⟨-, -, hreject⟩
    have hover := of_decide_eq_true (hreject (by omega))
    omega

theorem readLength_follows (d : Decoder) (hd : d.Within) :
    Agrees (readLength · d) fun p => d.After p.2 ∧ p.2.pos ≤ p.1 ∧ p.1 ≤ d.size := by
  apply (readVarint_follows d hd).bind
  rintro ⟨l, d'⟩ ⟨hl, hafter⟩
  apply (checkLength_follows l hl d' (hafter.within hd)).mono
  rintro ⟨stop, e⟩ ⟨rfl, hle, hsize⟩
  exact ⟨hafter, hle, hafter.size ▸ hsize⟩

theorem skipBytes_follows (n : Nat) (hn : 0 < n) (d : Decoder) :
    Agrees (fun _ => skipBytes n d) fun d' => d.After d' := by
  unfold skipBytes
  split
  · exact .fail _
  · exact .pure ⟨rfl, by show d.pos < d.pos + n; omega, by show d.pos + n ≤ d.size; omega⟩

theorem Decoder.After.stop {stop : Int} (h : d.After d') (hle : d'.pos ≤ stop)
    (hsize : stop ≤ d.size) : d.After { d' with pos := stop } :=
  ⟨h.data, Int.lt_of_lt_of_le h.lt hle, hsize⟩

theorem skipValue_follows (wireType : Nat) (d : Decoder) (hd : d.Within) :
    Agrees (skipValue · wireType d) fun d' => d.After d' := by
  unfold skipValue
  split
  · apply (readVarint_follows d hd).bind
    rintro ⟨v, d'⟩ ⟨-, hafter⟩
    exact .pure hafter
  · exact skipBytes_follows 4 (by decide) d
  · exact skipBytes_follows 8 (by decide) d
  · apply (readLength_follows d hd).bind
    rintro ⟨stop, d'⟩ ⟨hafter, hle, hsize⟩
    exact .pure (hafter.stop hle hsize)
  · exact .fail _

theorem slice_follows (data : Str) (start stop : Int) (hnonneg : 0 ≤ start) (hle : start ≤ stop)
    (hsize : stop ≤ data.length) :
    Agrees (fun _ => slice data start stop) fun s => s.length = stop - start := by
  unfold slice
  rw [if_neg (by omega)]
  apply Follows.pure
  rw [length_take, length_drop]
  omega

theorem setVarintValue_follows (v : Nat) :
    Agrees (fun _ => setVarintValue shape v) fun _ => True := by
  unfold setVarintValue
  split
  · exact .pure trivial
  · exact .pure trivial
  · exact .pure trivial
  · exact .fail _

theorem set32bitValue_follows (v : Nat) :
    Agrees (fun _ => set32bitValue shape v) fun _ => True := by
  unfold set32bitValue
  split
  · exact .pure trivial
  · exact .fail _

theorem set64bitValue_follows (v : Nat) :
    Agrees (fun _ => set64bitValue shape v) fun _ => True := by
  unfold set64bitValue
  split
  · exact .pure trivial
  · exact .fail _

theorem decodeValue_follows (set : (Int → Nat → Int) → Shape T → Val → Str → Run Val)
    (wireType : Nat) (shape : Shape T) (current : Val) (d : Decoder) (hd : d.Within)
    (hset : ∀ data : Str, (data.length : Int) < d.size - d.pos →
      Agrees (fun add => set add shape current data) fun _ => True) :
    Agrees (fun add => decodeValue add (set add) wireType shape current d) fun p =>
      d.After p.2 := by
  have hfixed : ∀ (n : Nat) (setFixed : Nat → Run Val), 0 < n →
      (∀ v, Agrees (fun _ => setFixed v) fun _ => True) →
      Agrees (fun _ => do
          let d' ← skipBytes n d
          let bytes ← slice d.data d.pos d'.pos
          let v ← setFixed (getLE bytes)
          return (v, d')) fun p => d.After p.2 := by
    intro n setFixed hn hsetFixed
    apply (skipBytes_follows n hn d).bind
    intro d' hafter
    apply (slice_follows d.data d.pos d'.pos hd.nonneg (Int.le_of_lt hafter.lt) hafter.le_size).bind
    intro bytes _
    apply (hsetFixed _).bind
    intro v _
    exact .pure hafter
  unfold decodeValue
  split
  · apply (readVarint_follows d hd).bind
    rintro ⟨v, d'⟩ ⟨-, hafter⟩
    apply (setVarintValue_follows shape v).bind
    intro v _
    exact .pure hafter
  · exact hfixed 4 (set32bitValue shape) (by decide) (set32bitValue_follows shape)
  · exact hfixed 8 (set64bitValue shape) (by decide) (set64bitValue_follows shape)
  · apply (readLength_follows d hd).bind
    rintro ⟨stop, d'⟩ ⟨hafter, hle, hsize⟩
    dsimp only at hafter hle hsize
    have hd' := hafter.within hd
    have hlt := hafter.lt
    have hdata : stop ≤ d'.data.length := Int.le_trans hsize (Int.le_of_eq hafter.size.symm)
    apply (slice_follows d'.data d'.pos stop hd'.nonneg hle hdata).bind
    intro data hlength
    apply (hset data (by omega)).bind
    intro v _
    exact .pure (hafter.stop hle hsize)
  · exact .fail _

/-- What the loops do with enough turns left. -/
structure LoopsFollow (env : TypeEnv T) (opts : Options) (fuel : Nat) : Prop where
  message : ∀ (fields : List (Field × T)) (fs : List (Field × Val)) (version : Option Int)
    (d : Decoder), d.Within → 2 * (d.size - d.pos) + 1 ≤ fuel →
      Follows (unmarshalLoop addLength env opts fields fuel fs version d)
        (unmarshalLoop addExact env opts fields fuel fs version d) fun _ => True
  value : ∀ (shape : Shape T) (current : Val) (data : Str), data.length < 2 ^ 63 →
    2 * data.length + 2 ≤ fuel → Follows (setTarget addLength env opts fuel shape current data)
        (setTarget addExact env opts fuel shape current data) fun _ => True
  packed : ∀ (length : Option Nat) (e : T) (vs : List Val) (idx : Nat) (d : Decoder), d.Within →
    2 * (d.size - d.pos) + 1 ≤ fuel → Follows (packedLoop addLength env opts fuel length e vs idx d)
        (packedLoop addExact env opts fuel length e vs idx d) fun _ => True

section Loops

variable {env : TypeEnv T} {opts : Options} {fuel : Nat}

section

variable (ih : LoopsFollow env opts fuel)
include ih

theorem LoopsFollow.decodeValue (wireType : Nat)
    (shape : Shape T) (current : Val) (d : Decoder) (hd : d.Within)
    (hfuel : 2 * (d.size - d.pos) ≤ fuel) :
    Agrees (fun add => ProtoBuf.decodeValue add (setLengthDelimValue env
      (setTarget add env opts fuel)) wireType shape current d) fun p => d.After p.2 := by
  apply decodeValue_follows (fun add => setLengthDelimValue env (setTarget add env opts fuel)) _ _ _ _
    hd
  intro data hlength
  have hnonneg := hd.nonneg
  have hsize := hd.size_lt
  have hvalue := fun shape current => ih.value shape current data (by omega) (by omega)
  unfold setLengthDelimValue
  split
  · apply (hvalue _ _).bind
    intro v _
    exact .pure trivial
  · exact hvalue _ _

theorem LoopsFollow.message_succ (fields : List (Field × T))
    (fs : List (Field × Val)) (version : Option Int) (d : Decoder) (hd : d.Within)
    (hfuel : 2 * (d.size - d.pos) + 1 ≤ (fuel + 1 : Nat)) :
    Agrees (unmarshalLoop · env opts fields (fuel + 1) fs version d) fun _ => True := by
  -- the end of a turn that has moved forward
  have hturn : ∀ (fs : List (Field × Val)) (version : Option Int) (d' : Decoder), d.After d' →
      Agrees (fun add => do
        emit (.turn d.pos d'.pos d.size)
        unmarshalLoop add env opts fields fuel fs version d') fun _ => True := by
    intro fs version d' hafter
    apply (Follows.turn ⟨hd.nonneg, hafter.lt, hafter.le_size⟩).bind
    intro _ _
    have hlt := hafter.lt
    have hsize := hafter.size
    exact ih.message fields fs version d' (hafter.within hd) (by omega)
  unfold unmarshalLoop
  split
  · apply (readVarint_follows d hd).bind
    rintro ⟨tag, d'⟩ ⟨-, hafter⟩
    have hd' := hafter.within hd
    dsimp only at hafter hd' ⊢
    split
    · apply (readVarint_follows d' hd').bind
      rintro ⟨v, d''⟩ ⟨-, hafter'⟩
      exact hturn _ _ _ (hafter.trans hafter')
    · split
      · split
        · exact .fail _
        · apply (skipValue_follows _ d' hd').bind
          intro d'' hafter'
          exact hturn _ _ _ (hafter.trans hafter')
      · split
        · have hlt := hafter.lt
          have hsize := hafter.size
          apply (ih.decodeValue _ _ _ d' hd' (by omega)).bind
          rintro ⟨v, d''⟩ hafter'
          exact hturn _ _ _ (hafter.trans hafter')
        · exact .fail _
  · exact .pure trivial

theorem LoopsFollow.packed_succ (length : Option Nat) (e : T)
    (vs : List Val) (idx : Nat) (d : Decoder) (hd : d.Within)
    (hfuel : 2 * (d.size - d.pos) + 1 ≤ (fuel + 1 : Nat)) :
    Agrees (packedLoop · env opts (fuel + 1) length e vs idx d) fun _ => True := by
  unfold packedLoop
  split
  · apply (ih.decodeValue _ _ _ d hd (by omega)).bind
    rintro ⟨v, d'⟩ hafter
    apply (Follows.turn ⟨hd.nonneg, hafter.lt, hafter.le_size⟩).bind
    intro _ _
    have hlt := hafter.lt
    have hsize := hafter.size
    exact ih.packed _ _ _ _ _ (hafter.within hd) (by dsimp only at hlt hsize; omega)
  · exact .pure trivial

omit ih in
theorem Decoder.within_start {data : Str} (h : data.length < 2 ^ 63) : Within ⟨data, 0⟩ :=
  ⟨Int.le_refl 0, Int.natCast_nonneg _, by show (data.length : Int) < 2 ^ 63; omega⟩

theorem LoopsFollow.checked (fields : List (Field × T))
    (fs : List (Field × Val)) (data : Str) (hdata : data.length < 2 ^ 63)
    (hfuel : 2 * data.length + 1 ≤ fuel) :
    Agrees (fun add => do
      let (fs, version) ← unmarshalLoop add env opts fields fuel fs none ⟨data, 0⟩
      checkVersion opts fs version) fun _ => True := by
  have hsize : size ⟨data, 0⟩ = data.length := rfl
  apply (ih.message fields fs none ⟨data, 0⟩ (within_start hdata) (by dsimp only; omega)).bind
  rintro ⟨fs, version⟩ _
  dsimp only
  unfold checkVersion
  split
  · exact .fail _
  · exact .pure trivial

theorem LoopsFollow.value_succ (shape : Shape T) (current : Val)
    (data : Str) (hdata : data.length < 2 ^ 63) (hfuel : 2 * data.length + 2 ≤ fuel + 1) :
    Agrees (setTarget · env opts (fuel + 1) shape current data) fun _ => True := by
  have hstart := within_start hdata
  have hsize : size ⟨data, 0⟩ = data.length := rfl
  have hpacked : ∀ (length : Option Nat) (e : T) (vs : List Val), Agrees (fun add => do
      let vs ← packedLoop add env opts fuel length e vs 0 ⟨data, 0⟩
      return Val.list vs) fun _ => True := by
    intro length e vs
    apply (ih.packed length e vs 0 ⟨data, 0⟩ hstart (by dsimp only; omega)).bind
    intro vs _
    exact .pure trivial
  unfold setTarget
  split
  · exact .pure trivial
  · split
    · exact .pure trivial
    · exact hpacked none _ _
  · exact hpacked _ _ _
  · exact ih.checked _ _ data hdata (by omega)
  · exact .fail _

end

theorem loopsFollow (env : TypeEnv T) (opts : Options) (fuel : Nat) :
    LoopsFollow env opts fuel := by
  induction fuel with
  | zero =>
    refine ⟨?_, ?_, ?_⟩
    · intro fields fs version d hd hfuel
      have hle := hd.le_size
      omega
    · omega
    · intro length e vs idx d hd hfuel
      have hle := hd.le_size
      omega
  | succ fuel ih => exact ⟨ih.message_succ, ih.value_succ, ih.packed_succ⟩

end Loops

/-- The decoder is total on data if and only if no length of an exact reading leaves the type `int`
when it is added to its position. -/
theorem unmarshal_total_iff (env : TypeEnv T) (opts : Options) (t : T) (current : Val) (data : Str)
    (hdata : data.length < 2 ^ 63) (fuel : Nat) (hfuel : 2 * data.length + 1 ≤ fuel) :
    (unmarshal fuel env opts t current data).Total ↔
      (unmarshalWith addExact fuel env opts t current data).Small := by
  apply Follows.total_iff (Q := fun _ => True)
  unfold unmarshal unmarshalWith
  split
  · split
    · exact .pure trivial
    · exact (loopsFollow env opts fuel).checked _ _ data hdata hfuel
  · exact .fail _

/-- A program with one type, a struct without fields. -/
def emptyEnv : TypeEnv Unit where
  shape _ := .struct []
  zero _ := .struct []
  zero_eq _ := rfl
  ptrDepth _ := 0
  ptrDepth_lt h := nomatch h

def noOptions : Options := ⟨false, 0, by decide, false⟩

/-- A string of the unknown field 15 that breaks off. -/
theorem unmarshal_total_iff_truncated :
    (unmarshal 7 emptyEnv noOptions () (.struct []) [0x7A, 0x7F, 0x61]).Total :=
  (unmarshal_total_iff emptyEnv noOptions () (.struct []) [0x7A, 0x7F, 0x61] (by decide) 7
    (by decide)).mpr (by decide)

def endlessData : Str := [0x7A, 0xF5, 0xFF, 0xFF, 0xFF, 0xFF, 0xFF, 0xFF, 0xFF, 0xFF, 0x01]

theorem unmarshalLoop_endlessData (fuel : Nat) :
    (unmarshalLoop addLength emptyEnv noOptions [] fuel [] none ⟨endlessData, 0⟩).out =
      .timeout := by
  induction fuel with
  | zero => rfl
  | succ fuel ih =>
    have hlength : (readVarint ⟨endlessData, 1⟩).out = .ok (2 ^ 64 - 11, ⟨endlessData, 11⟩) := rfl
    have hskip : (skipValue addLength 2 ⟨endlessData, 1⟩).out = .ok ⟨endlessData, 0⟩ := by
      show (readLength addLength ⟨endlessData, 1⟩ >>= _).out = _
      unfold readLength
      rw [bind_of_ok hlength]
      rfl
    show (skipValue addLength 2 ⟨endlessData, 1⟩ >>= _).out = _
    rw [bind_of_ok hskip]
    exact ih

theorem not_unmarshal_total :
    ¬ ∀ (env : TypeEnv Unit) (opts : Options) (t : Unit) (current : Val) (data : Str),
      data.length < 2 ^ 63 → ∃ fuel, (unmarshal fuel env opts t current data).Total := by
  intro h
  obtain ⟨fuel, htotal⟩ := h emptyEnv noOptions () (.struct []) endlessData (by decide)
  have hout : (unmarshal fuel emptyEnv noOptions () (.struct []) endlessData).out = .timeout := by
    have hloop := unmarshalLoop_endlessData fuel
    show out (Run.bind _ _) = _
    rw [Run.bind, hloop]
  obtain ⟨a, ha⟩ | ⟨e, he⟩ := htotal.ends
  · exact nomatch hout.symm.trans ha
  · exact nomatch hout.symm.trans he

end Solocoder.Serialize.ProtoBuf
