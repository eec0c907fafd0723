import ServiceToolkit.BitFields
import ServiceToolkit.Runs

/-!
# The Snowflake Generator

`SnowflakeGenerator` packs a millisecond, a datacenter, a worker and a sequence number into one
integer. A generator keeps the last millisecond it used and the last sequence number in it: a
reading of the clock at that millisecond takes the next sequence number, a later one starts at
zero, and one before it is waited out, as is a millisecond whose sequence numbers are used up.

The clock is a list of readings, of which each call reads as many as it needs. A call that
waits for a reading the list does not have does not return (`none`).
-/

namespace ServiceToolkit.Ids

open BitFields List Option

/-! ### The generator -/

/-- `DEFAULT_EPOCH_MS`. -/
def defaultEpochMs : ℤ := 1735682400000

/-- The widths of the fields below the millisecond. -/
structure Widths where
  sequenceBits : ℕ
  workerBits : ℕ
  datacenterBits : ℕ
  deriving DecidableEq

/-- The default widths. -/
def Widths.default : Widths := ⟨12, 5, 5⟩

/-- `max_sequence`. -/
def Widths.maxSequence (w : Widths) : ℕ := (1 <<< w.sequenceBits) - 1

/-- `worker_shift`. -/
def Widths.workerShift (w : Widths) : ℕ := w.sequenceBits

/-- `datacenter_shift`. -/
def Widths.datacenterShift (w : Widths) : ℕ := w.sequenceBits + w.workerBits

/-- `timestamp_shift`. -/
def Widths.timestampShift (w : Widths) : ℕ := w.sequenceBits + w.workerBits + w.datacenterBits

/-- A generator that the constructor accepted: its worker and datacenter fit their fields. -/
structure SnowflakeGenerator where
  epochMs : ℤ
  workerId : ℤ
  datacenterId : ℤ
  widths : Widths
  worker_nonneg : 0 ≤ workerId
  worker_lt : workerId < 2 ^ widths.workerBits
  datacenter_nonneg : 0 ≤ datacenterId
  datacenter_lt : datacenterId < 2 ^ widths.datacenterBits
  deriving DecidableEq

/-- The width a shift count stands for; shifting by a negative one raises. -/
def shiftCount (bits : ℤ) : Except String ℕ :=
  if bits < 0 then .error "negative shift count" else .ok bits.toNat

/-- The check that an id fits its field, with the width it fits. -/
def checkRange (message : String) (id bits : ℤ) :
    Except String { n : ℕ // 0 ≤ id ∧ id < 2 ^ n } := do
  if hneg : id < 0 then throw message
  else
    let n ← shiftCount bits
    if hlt : (1 : ℤ) <<< n ≤ id then throw message
    else return ⟨n, not_lt.mp hneg, by rwa [Int.shiftLeft_eq, one_mul, not_le] at hlt⟩

/-- `__init__`. -/
def SnowflakeGenerator.new (epochMs workerId datacenterId sequenceBits workerBits
    datacenterBits : ℤ) : Except String SnowflakeGenerator := do
  let worker ← checkRange "worker_id out of range" workerId workerBits
  let datacenter ← checkRange "datacenter_id out of range" datacenterId datacenterBits
  let sequence ← shiftCount sequenceBits
  return ⟨epochMs, workerId, datacenterId, ⟨sequence, worker.1, datacenter.1⟩,
    worker.2.1, worker.2.2, datacenter.2.1, datacenter.2.2⟩

theorem checkRange_of_fits (message : String) {id : ℤ} {n : ℕ} (h : 0 ≤ id ∧ id < 2 ^ n) :
    checkRange message id n = .ok ⟨n, h⟩ := by
  have hlt : ¬ (1 : ℤ) <<< n ≤ id := by rw [Int.shiftLeft_eq, one_mul, not_le]; exact h.2
  have hn : ¬ (n : ℤ) < 0 := by omega
  simp [checkRange, shiftCount, not_lt.mpr h.1, hn, hlt, bind, Except.bind, pure, Except.pure]

/-- **Every generator is one the constructor returns**, on its own attributes. -/
theorem SnowflakeGenerator.new_self (g : SnowflakeGenerator) :
    SnowflakeGenerator.new g.epochMs g.workerId g.datacenterId g.widths.sequenceBits
      g.widths.workerBits g.widths.datacenterBits = .ok g := by
  have hsequence : shiftCount g.widths.sequenceBits = .ok g.widths.sequenceBits := by
    simp [shiftCount]
  rw [SnowflakeGenerator.new, checkRange_of_fits _ ⟨g.worker_nonneg, g.worker_lt⟩,
    checkRange_of_fits _ ⟨g.datacenter_nonneg, g.datacenter_lt⟩, hsequence]
  rfl

theorem shiftCount_eq_ok {bits : ℤ} {n : ℕ} (h : shiftCount bits = .ok n) : (n : ℤ) = bits := by
  rw [shiftCount] at h
  split at h
  · cases h
  · rename_i hnonneg
    obtain rfl := Except.ok.inj h
    exact Int.toNat_of_nonneg (not_lt.mp hnonneg)

theorem checkRange_eq_ok {message : String} {id bits : ℤ}
    {n : { n : ℕ // 0 ≤ id ∧ id < 2 ^ n }} (h : checkRange message id bits = .ok n) :
    (n.1 : ℤ) = bits := by
  rw [checkRange] at h
  split at h
  · cases h
  · cases hcount : shiftCount bits with
    | error message' =>
      rw [hcount] at h
      cases h
    | ok m =>
      rw [hcount] at h
      simp only [bind, Except.bind, pure, Except.pure] at h
      split at h
      · cases h
      · obtain rfl := Except.ok.inj h
        exact shiftCount_eq_ok hcount

theorem SnowflakeGenerator.new_eq_ok {epochMs workerId datacenterId sequenceBits workerBits
    datacenterBits : ℤ} {g : SnowflakeGenerator}
    (h : SnowflakeGenerator.new epochMs workerId datacenterId sequenceBits workerBits
      datacenterBits = .ok g) :
    g.epochMs = epochMs ∧ g.workerId = workerId ∧ g.datacenterId = datacenterId ∧
      g.widths.sequenceBits = sequenceBits ∧ g.widths.workerBits = workerBits ∧
      g.widths.datacenterBits = datacenterBits := by
  rw [SnowflakeGenerator.new] at h
  cases hworker : checkRange "worker_id out of range" workerId workerBits with
  | error message =>
    rw [hworker] at h
    cases h
  | ok worker =>
    cases hdatacenter : checkRange "datacenter_id out of range" datacenterId datacenterBits with
    | error message =>
      rw [hworker, hdatacenter] at h
      cases h
    | ok datacenter =>
      cases hsequence : shiftCount sequenceBits with
      | error message =>
        rw [hworker, hdatacenter, hsequence] at h
        cases h
      | ok sequence =>
        rw [hworker, hdatacenter, hsequence] at h
        obtain rfl := Except.ok.inj h
        exact ⟨rfl, rfl, rfl, shiftCount_eq_ok hsequence, checkRange_eq_ok hworker,
          checkRange_eq_ok hdatacenter⟩

/-! ### Generating ids -/

/-- `_last_timestamp` and `_sequence`. -/
structure Clock where
  lastTimestamp : ℤ
  sequence : ℕ
  deriving DecidableEq

/-- The clock of a new generator. -/
def Clock.initial : Clock := ⟨-1, 0⟩

/-- `_wait_next_millis`: the first reading after the last timestamp, and the readings left. -/
def waitNextMillis (lastTimestamp : ℤ) : List ℤ → Option (ℤ × List ℤ)
  | [] => none
  | timestamp :: readings =>
    if timestamp ≤ lastTimestamp then waitNextMillis lastTimestamp readings
    else some (timestamp, readings)

/-- The first reading of a call: one before the last timestamp is waited out. -/
def readMillis (lastTimestamp : ℤ) : List ℤ → Option (ℤ × List ℤ)
  | [] => none
  | timestamp :: readings =>
    if timestamp < lastTimestamp then waitNextMillis lastTimestamp readings
    else some (timestamp, readings)

/-- The millisecond and sequence number of the next id, and the readings left. -/
def tick (w : Widths) (c : Clock) (readings : List ℤ) : Option (Clock × List ℤ) := do
  let (timestamp, readings) ← readMillis c.lastTimestamp readings
  if timestamp = c.lastTimestamp then
    let sequence := (c.sequence + 1) &&& w.maxSequence
    if sequence = 0 then
      let (timestamp, readings) ← waitNextMillis c.lastTimestamp readings
      return (⟨timestamp, sequence⟩, readings)
    else return (⟨timestamp, sequence⟩, readings)
  else return (⟨timestamp, 0⟩, readings)

/-- The parts of an id: the millisecond since the epoch, and the fields below it. -/
structure Fields where
  millis : ℤ
  datacenterId : ℤ
  workerId : ℤ
  sequence : ℤ
  deriving DecidableEq

/-- The fields below the millisecond fit their widths. -/
structure Widths.Fits (w : Widths) (f : Fields) : Prop where
  datacenter_nonneg : 0 ≤ f.datacenterId
  datacenter_lt : f.datacenterId < 2 ^ w.datacenterBits
  worker_nonneg : 0 ≤ f.workerId
  worker_lt : f.workerId < 2 ^ w.workerBits
  sequence_nonneg : 0 ≤ f.sequence
  sequence_le : f.sequence ≤ w.maxSequence

/-- The shifts and ors that make an id. -/
def Widths.pack (w : Widths) (f : Fields) : ℤ :=
  Int.lor (Int.lor (Int.lor (f.millis <<< w.timestampShift) (f.datacenterId <<< w.datacenterShift))
    (f.workerId <<< w.workerShift)) f.sequence

/-- The parts of the id a generator returns for a millisecond and sequence number. -/
def SnowflakeGenerator.fields (g : SnowflakeGenerator) (c : Clock) : Fields where
  millis := c.lastTimestamp - g.epochMs
  datacenterId := g.datacenterId
  workerId := g.workerId
  sequence := c.sequence

/-- `generate`: the id, the clock it leaves, and the readings left. -/
def SnowflakeGenerator.generate (g : SnowflakeGenerator) (c : Clock) (readings : List ℤ) :
    Option (ℤ × Clock × List ℤ) := do
  let (c, readings) ← tick g.widths c readings
  return (g.widths.pack (g.fields c), c, readings)

/-- A run of `generate` calls: each id, with the clock its call left. -/
def SnowflakeGenerator.generateAll (g : SnowflakeGenerator) :
    ℕ → Clock → List ℤ → Option (List (ℤ × Clock))
  | 0, _, _ => some []
  | n + 1, c, readings => do
      let (id, c, readings) ← g.generate c readings
      let issued ← g.generateAll n c readings
      return (id, c) :: issued

/-! ### The fields of an id -/

section

variable {w : Widths} {f f' : Fields}

theorem maxSequence_lt (w : Widths) : w.maxSequence < 2 ^ w.sequenceBits := by
  have hpos : 0 < 2 ^ w.sequenceBits := Nat.two_pow_pos _
  rw [Widths.maxSequence, Nat.one_shiftLeft]
  omega

theorem Widths.Fits.sequence_lt (h : w.Fits f) : f.sequence < 2 ^ w.sequenceBits := by
  refine h.sequence_le.trans_lt ?_
  exact_mod_cast maxSequence_lt w

/-- **The fields do not overlap**: an id is the sum of its parts, each at its place. -/
theorem pack_eq (h : w.Fits f) :
    w.pack f = ((f.millis * 2 ^ w.datacenterBits + f.datacenterId) * 2 ^ w.workerBits + f.workerId)
      * 2 ^ w.sequenceBits + f.sequence := by
  rw [Widths.pack, Widths.timestampShift, Widths.datacenterShift, Widths.workerShift,
    shiftLeft_lor_shiftLeft _ _ h.datacenter_nonneg h.datacenter_lt,
    shiftLeft_lor_shiftLeft _ _ h.worker_nonneg h.worker_lt,
    shiftLeft_lor _ h.sequence_nonneg h.sequence_lt]

theorem pack_inj (h : w.Fits f) (h' : w.Fits f') (heq : w.pack f = w.pack f') : f = f' := by
  rw [pack_eq h, pack_eq h'] at heq
  obtain ⟨hrest, hsequence⟩ :=
    field_inj h.sequence_nonneg h.sequence_lt h'.sequence_nonneg h'.sequence_lt heq
  obtain ⟨hrest, hworker⟩ :=
    field_inj h.worker_nonneg h.worker_lt h'.worker_nonneg h'.worker_lt hrest
  obtain ⟨hmillis, hdatacenter⟩ :=
    field_inj h.datacenter_nonneg h.datacenter_lt h'.datacenter_nonneg h'.datacenter_lt hrest
  obtain ⟨millis, datacenterId, workerId, sequence⟩ := f
  obtain ⟨millis', datacenterId', workerId', sequence'⟩ := f'
  simp_all

theorem pack_lt_of_millis (h : w.Fits f) (h' : w.Fits f') (hlt : f.millis < f'.millis) :
    w.pack f < w.pack f' := by
  rw [pack_eq h, pack_eq h']
  refine field_lt_field ?_ h.sequence_lt h'.sequence_nonneg
  refine field_lt_field ?_ h.worker_lt h'.worker_nonneg
  exact field_lt_field hlt h.datacenter_lt h'.datacenter_nonneg

theorem pack_lt_of_sequence (h : w.Fits f) (h' : w.Fits f') (hmillis : f.millis = f'.millis)
    (hdatacenter : f.datacenterId = f'.datacenterId) (hworker : f.workerId = f'.workerId)
    (hlt : f.sequence < f'.sequence) : w.pack f < w.pack f' := by
  rw [pack_eq h, pack_eq h', hmillis, hdatacenter, hworker]
  omega

theorem pack_default_bounds (h : Widths.default.Fits f) (hmillis : 0 ≤ f.millis)
    (hlt : f.millis < 2 ^ 41) :
    0 ≤ Widths.default.pack f ∧ Widths.default.pack f < 2 ^ 63 := by
  rw [pack_eq h]
  refine ⟨?_, ?_⟩
  · refine field_nonneg (field_nonneg (field_nonneg hmillis ?_) ?_) h.sequence_nonneg
    · exact h.datacenter_nonneg
    · exact h.worker_nonneg
  · have hupper := field_lt_two_pow (field_lt_two_pow hlt h.datacenter_lt) h.worker_lt
    exact field_lt_two_pow hupper h.sequence_lt

end

/-! ### The clock -/

/-- The clock `c'` is after `c`: at a later millisecond, or at the same one with a later sequence
number. -/
def Clock.Before (c c' : Clock) : Prop :=
  c.lastTimestamp < c'.lastTimestamp ∨
    c.lastTimestamp = c'.lastTimestamp ∧ c.sequence < c'.sequence

theorem Clock.Before.trans {c₁ c₂ c₃ : Clock} (h₁ : c₁.Before c₂) (h₂ : c₂.Before c₃) :
    c₁.Before c₃ := by
  unfold Clock.Before at *
  omega

/-- **What a tick does**: it takes the next sequence number of the millisecond at once, or waits
for a later millisecond and starts at zero. -/
inductive Ticked (w : Widths) (c : Clock) (readings : List ℤ) : Clock → List ℤ → Prop
  | next {rest : List ℤ} (hreadings : readings = c.lastTimestamp :: rest)
      (hroom : c.sequence + 1 ≤ w.maxSequence) :
      Ticked w c readings ⟨c.lastTimestamp, c.sequence + 1⟩ rest
  | later {timestamp : ℤ} {skipped rest : List ℤ}
      (hreadings : readings = skipped ++ timestamp :: rest)
      (hlater : c.lastTimestamp < timestamp) : Ticked w c readings ⟨timestamp, 0⟩ rest

section

variable {w : Widths} {c c' : Clock} {readings rest : List ℤ} {lastTimestamp timestamp : ℤ}

theorem waitNextMillis_spec (h : waitNextMillis lastTimestamp readings = some (timestamp, rest)) :
    lastTimestamp < timestamp ∧ ∃ skipped, readings = skipped ++ timestamp :: rest := by
  induction readings with
  | nil => cases h
  | cons t readings ih =>
    rw [waitNextMillis] at h
    split at h
    · obtain ⟨hlater, skipped, rfl⟩ := ih h
      exact ⟨hlater, t :: skipped, rfl⟩
    · rename_i hlater
      cases h
      exact ⟨not_le.mp hlater, [], rfl⟩

theorem readMillis_spec (h : readMillis lastTimestamp readings = some (timestamp, rest)) :
    readings = timestamp :: rest ∧ timestamp = lastTimestamp ∨
      lastTimestamp < timestamp ∧ ∃ skipped, readings = skipped ++ timestamp :: rest := by
  cases readings with
  | nil => cases h
  | cons t readings =>
    rw [readMillis] at h
    split at h
    · obtain ⟨hlater, skipped, rfl⟩ := waitNextMillis_spec h
      exact .inr ⟨hlater, t :: skipped, rfl⟩
    · rename_i hnot
      cases h
      rcases (not_lt.mp hnot).eq_or_lt with heq | hlt
      · exact .inl ⟨rfl, heq.symm⟩
      · exact .inr ⟨hlt, [], rfl⟩

theorem mask_sequence (hc : c.sequence ≤ w.maxSequence) :
    (c.sequence + 1) &&& w.maxSequence =
      if c.sequence + 1 ≤ w.maxSequence then c.sequence + 1 else 0 := by
  have hpos : 0 < 2 ^ w.sequenceBits := Nat.two_pow_pos _
  rw [Widths.maxSequence, Nat.one_shiftLeft] at *
  rw [Nat.and_two_pow_sub_one_eq_mod]
  split
  · exact Nat.mod_eq_of_lt (by omega)
  · have hwrap : c.sequence + 1 = 2 ^ w.sequenceBits := by omega
    rw [hwrap, Nat.mod_self]

theorem tick_ticked (hc : c.sequence ≤ w.maxSequence)
    (h : tick w c readings = some (c', rest)) : Ticked w c readings c' rest := by
  simp only [tick, bind, bind_eq_some_iff, Prod.exists, pure] at h
  obtain ⟨timestamp, readings', hread, h⟩ := h
  rcases readMillis_spec hread with ⟨rfl, rfl⟩ | ⟨hlater, skipped, rfl⟩
  · rw [if_pos rfl, mask_sequence hc] at h
    by_cases hroom : c.sequence + 1 ≤ w.maxSequence
    · rw [if_pos hroom, if_neg (Nat.succ_ne_zero _)] at h
      cases h
      exact .next rfl hroom
    · rw [if_neg hroom, if_pos rfl] at h
      obtain ⟨⟨t, rest'⟩, hwait, h⟩ := bind_eq_some_iff.mp h
      cases h
      obtain ⟨hlater, skipped, rfl⟩ := waitNextMillis_spec hwait
      exact .later (cons_append ..).symm hlater
  · rw [if_neg hlater.ne'] at h
    cases h
    exact .later rfl hlater

theorem Ticked.before (h : Ticked w c readings c' rest) : c.Before c' := by
  cases h with
  | next => exact .inr ⟨rfl, Nat.lt_succ_self _⟩
  | later _ hlater => exact .inl hlater

theorem Ticked.sequence_le (h : Ticked w c readings c' rest) : c'.sequence ≤ w.maxSequence := by
  cases h with
  | next _ hroom => exact hroom
  | later => exact Nat.zero_le _

theorem Ticked.readings_eq (h : Ticked w c readings c' rest) :
    ∃ skipped, readings = skipped ++ c'.lastTimestamp :: rest := by
  cases h with
  | next hreadings => exact ⟨[], hreadings⟩
  | later hreadings => exact ⟨_, hreadings⟩

/-! ### Runs of a generator -/

variable {g : SnowflakeGenerator} {id : ℤ}

theorem fields_fit (g : SnowflakeGenerator) (hc : c.sequence ≤ g.widths.maxSequence) :
    g.widths.Fits (g.fields c) where
  datacenter_nonneg := g.datacenter_nonneg
  datacenter_lt := g.datacenter_lt
  worker_nonneg := g.worker_nonneg
  worker_lt := g.worker_lt
  sequence_nonneg := Int.natCast_nonneg _
  sequence_le := Int.ofNat_le.mpr hc

theorem pack_lt_of_before (hc : c.sequence ≤ g.widths.maxSequence)
    (hc' : c'.sequence ≤ g.widths.maxSequence) (hbefore : c.Before c') :
    g.widths.pack (g.fields c) < g.widths.pack (g.fields c') := by
  rcases hbefore with hmillis | ⟨hmillis, hsequence⟩
  · exact pack_lt_of_millis (fields_fit g hc) (fields_fit g hc') (Int.sub_lt_sub_right hmillis _)
  · refine pack_lt_of_sequence (fields_fit g hc) (fields_fit g hc') ?_ rfl rfl ?_
    · exact congrArg (· - g.epochMs) hmillis
    · exact Int.ofNat_lt.mpr hsequence

theorem generate_spec (hc : c.sequence ≤ g.widths.maxSequence)
    (h : g.generate c readings = some (id, c', rest)) :
    Ticked g.widths c readings c' rest ∧ id = g.widths.pack (g.fields c') := by
  simp only [SnowflakeGenerator.generate, bind, bind_eq_some_iff, Prod.exists, pure] at h
  obtain ⟨c₁, rest₁, htick, h⟩ := h
  obtain ⟨rfl, hrest⟩ := Prod.mk.inj (some.inj h)
  obtain ⟨rfl, rfl⟩ := Prod.mk.inj hrest
  exact ⟨tick_ticked hc htick, rfl⟩

/-- What holds of an id a generator returned after the clock was at `c`. -/
structure Issued (g : SnowflakeGenerator) (c : Clock) (readings : List ℤ) (p : ℤ × Clock) :
    Prop where
  id_eq : p.1 = g.widths.pack (g.fields p.2)
  sequence_le : p.2.sequence ≤ g.widths.maxSequence
  before : c.Before p.2
  read : p.2.lastTimestamp ∈ readings

/-- **The run lemma**: every id is that of a clock after the one found, and ids increase. -/
theorem generateAll_spec {n : ℕ} {issued : List (ℤ × Clock)}
    (hc : c.sequence ≤ g.widths.maxSequence) (h : g.generateAll n c readings = some issued) :
    (∀ p ∈ issued, Issued g c readings p) ∧ issued.Pairwise fun p q => p.1 < q.1 := by
  induction n generalizing c readings issued with
  | zero =>
    cases h
    exact ⟨nofun, .nil⟩
  | succ n ih =>
    simp only [SnowflakeGenerator.generateAll, bind, bind_eq_some_iff, Prod.exists,
      pure] at h
    obtain ⟨id, c', rest, hgenerate, issued', hrest, h⟩ := h
    cases h
    obtain ⟨hticked, rfl⟩ := generate_spec hc hgenerate
    obtain ⟨skipped, hreadings⟩ := hticked.readings_eq
    obtain ⟨hissued, hincreasing⟩ := ih hticked.sequence_le hrest
    refine ⟨?_, pairwise_cons.mpr ⟨?_, hincreasing⟩⟩
    · rw [forall_mem_cons]
      refine ⟨⟨rfl, hticked.sequence_le, hticked.before, ?_⟩, fun p hp => ?_⟩
      · rw [hreadings]
        exact mem_append_right _ mem_cons_self
      · obtain ⟨hid, hle, hbefore, hread⟩ := hissued p hp
        refine ⟨hid, hle, hticked.before.trans hbefore, ?_⟩
        rw [hreadings]
        exact mem_append_right _ (mem_cons_of_mem _ hread)
    · intro p hp
      obtain ⟨hid, hle, hbefore, -⟩ := hissued p hp
      rw [hid]
      exact pack_lt_of_before hticked.sequence_le hle hbefore

/-- **Snowflake ids**, whatever the readings: ids strictly increase; each decodes to the millisecond
its call read, the generator's datacenter and worker and a sequence number, and to no other parts; a
generator of the same widths and epoch with another datacenter or worker returns none of them; and
with the default widths, 41 bits of milliseconds make a positive 64-bit id. -/
theorem snowflake_ids (g : SnowflakeGenerator) (n : ℕ) (readings : List ℤ)
    (issued : List (ℤ × Clock)) (h : g.generateAll n .initial readings = some issued) :
    (issued.map Prod.fst).Pairwise (· < ·) ∧
    (∀ p ∈ issued, p.2.lastTimestamp ∈ readings ∧ g.widths.Fits (g.fields p.2) ∧
      g.widths.pack (g.fields p.2) = p.1 ∧
      ∀ f, g.widths.Fits f → g.widths.pack f = p.1 → f = g.fields p.2) ∧
    (∀ (g' : SnowflakeGenerator) n' readings' issued', g'.widths = g.widths →
      g'.epochMs = g.epochMs → (g'.datacenterId, g'.workerId) ≠ (g.datacenterId, g.workerId) →
      g'.generateAll n' .initial readings' = some issued' →
      ∀ p ∈ issued, ∀ p' ∈ issued', p.1 ≠ p'.1) ∧
    (g.widths = .default → ∀ p ∈ issued, g.epochMs ≤ p.2.lastTimestamp →
      p.2.lastTimestamp < g.epochMs + 2 ^ 41 → 0 ≤ p.1 ∧ p.1 < 2 ^ 63) := by
  obtain ⟨hissued, hincreasing⟩ := generateAll_spec (Nat.zero_le _) h
  refine ⟨pairwise_map.mpr hincreasing, ?_, ?_, ?_⟩
  · intro p hp
    obtain ⟨hid, hle, -, hread⟩ := hissued p hp
    refine ⟨hread, fields_fit g hle, hid.symm, fun f hf heq => ?_⟩
    exact pack_inj hf (fields_fit g hle) (heq.trans hid)
  · intro g' n' readings' issued' hwidths hepoch hne h' p hp p' hp' heq
    obtain ⟨hid, hle, -, -⟩ := hissued p hp
    obtain ⟨hid', hle', -, -⟩ := (generateAll_spec (Nat.zero_le _) h').1 p' hp'
    rw [hid, hid', hwidths] at heq
    have hfields := pack_inj (fields_fit g hle) (hwidths ▸ fields_fit g' hle') heq
    refine hne (Prod.ext ?_ ?_)
    · exact (congrArg Fields.datacenterId hfields).symm
    · exact (congrArg Fields.workerId hfields).symm
  · intro hdefault p hp hepoch hlt
    obtain ⟨hid, hle, -, -⟩ := hissued p hp
    have hfit := fields_fit g hle
    rw [hid]
    rw [hdefault] at hfit ⊢
    refine pack_default_bounds hfit (Int.sub_nonneg_of_le hepoch) ?_
    exact Int.sub_left_lt_of_lt_add hlt

end

/-- The first worker of the first datacenter, with the defaults of the constructor. -/
def firstWorker : SnowflakeGenerator :=
  ⟨defaultEpochMs, 0, 0, .default, by decide, by decide, by decide, by decide⟩

/-- Three ids: two in one millisecond, and one after a clock that steps back. -/
theorem snowflake_ids_stepping_back :
    ∃ issued, firstWorker.generateAll 3 .initial
        [defaultEpochMs + 5, defaultEpochMs + 5, defaultEpochMs + 4, defaultEpochMs + 6] =
          some issued ∧
      issued.map Prod.fst = [20971520, 20971521, 25165824] ∧
      (issued.map Prod.fst).Pairwise (· < ·) := by
  have hrun : firstWorker.generateAll 3 .initial
      [defaultEpochMs + 5, defaultEpochMs + 5, defaultEpochMs + 4, defaultEpochMs + 6] =
        some [(20971520, ⟨defaultEpochMs + 5, 0⟩), (20971521, ⟨defaultEpochMs + 5, 1⟩),
          (25165824, ⟨defaultEpochMs + 6, 0⟩)] := by decide +kernel
  exact ⟨_, hrun, rfl, (snowflake_ids firstWorker 3 _ _ hrun).1⟩

end ServiceToolkit.Ids
