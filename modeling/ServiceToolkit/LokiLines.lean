import Mathlib.Data.Prod.Lex
import Mathlib.Data.List.Lex
import Mathlib.Data.String.Basic
import ServiceToolkit.Dict
import ServiceToolkit.Json
import ServiceToolkit.Runs
import ServiceToolkit.StableSort

/-!
# Log Lines of a Query Response

`_decode_lines` (`observability/loki.py`) flattens the streams of a range-query response into one
list of log lines, and sorts it on the timestamp, the labels in the order of their keys, and the
line, so that a caller can put a cursor into it. A response that is not of the expected shape is a
`LokiQueryError`, at the first part that is not.

What is of the expected shape is said apart from the decoder (`IsResponse`), with a parameter for
the parts that are read: in a response of the server a timestamp is a text of digits and labels are
texts (`Shape.public`); the code takes whatever `int()` reads as a number that is not negative, and
labels of any kind, which `str()` renders (`Shape.read`).

`int()` of an infinite number raises an `OverflowError`, which the decoder does not catch. No
response has one: the JSON decoder refuses a number out of range (`Decoded`).
-/

namespace ServiceToolkit.Loki

open List Json StableSort

/-- One log record, flattened from the stream-oriented response. -/
structure LokiLogLine where
  timestampNs : ℤ
  line : String
  labels : Dict String String

/-- What the decoder raises: a `LokiQueryError` with its text, or what it does not catch. -/
inductive Raised
  | lokiQueryError (msg : String)
  | uncaught (exc : Json.Raised)

/-- The order of the lines asked for. -/
inductive QueryDirection
  | forward
  | backward
  deriving DecidableEq

variable (D : Decimals) (render : Value → String)

/-- `str(value)`: a text as it is, other values as the language renders them. -/
def str : Value → String
  | .str text => text
  | value => render value

/-- The labels of a stream. -/
def decodeLabels (rawLabels : List (String × Value)) : Dict String String :=
  .ofList (rawLabels.map fun m => (m.1, str render m.2))

/-- One entry of a stream. -/
def decodeEntry (labels : Dict String String) : Value → Except Raised LokiLogLine
  | .list (stamp :: .str line :: _) =>
    match stamp.toInt D with
    | .error .typeError | .error .valueError =>
      .error (.lokiQueryError "Loki returned an invalid log timestamp")
    | .error exc => .error (.uncaught exc)
    | .ok timestampNs =>
      if timestampNs < 0 then
        .error (.lokiQueryError "Loki returned a negative log timestamp")
      else .ok ⟨timestampNs, line, labels⟩
  | _ => .error (.lokiQueryError "Loki returned a malformed log entry")

/-- The entries of one stream. -/
def decodeStream : Value → Except Raised (List LokiLogLine)
  | .dict members =>
    match (Value.dict members).get? "stream", (Value.dict members).get? "values" with
    | some (.dict rawLabels), some (.list rawValues) =>
      rawValues.mapM (decodeEntry D (decodeLabels render rawLabels))
    | _, _ => .error (.lokiQueryError "Loki returned malformed stream data")
  | _ => .error (.lokiQueryError "Loki returned a malformed stream")

/-- A member that is a given text. -/
def memberIs (value : Value) (name text : String) : Bool :=
  match value.get? name with
  | some (.str text') => text' == text
  | _ => false

/-- The labels in the order of their keys. -/
def sortedLabels (labels : Dict String String) : List (String ×ₗ String) :=
  sortOn id false (labels.entries.map toLex)

/-- `(item.timestamp_ns, tuple(sorted(item.labels.items())), item.line)`. -/
def sortKey (item : LokiLogLine) : ℤ ×ₗ List (String ×ₗ String) ×ₗ String :=
  toLex (item.timestampNs, toLex (sortedLabels item.labels, item.line))

/-- `_decode_lines`. -/
def decodeLines (payload : Value) (direction : QueryDirection) :
    Except Raised (List LokiLogLine) :=
  if memberIs payload "status" "success" = false then
    .error (.lokiQueryError "Loki returned an unsuccessful query response")
  else
    let data := (payload.get? "data").getD .null
    if memberIs data "resultType" "streams" = false then
      .error (.lokiQueryError "Loki returned a non-stream query response")
    else
      match data.get? "result" with
      | some (.list streams) =>
        (streams.mapM (decodeStream D render)).map fun lines =>
          sortOn sortKey (direction = .backward) lines.flatten
      | _ => .error (.lokiQueryError "Loki returned malformed stream results")

/-! ### The shape of a response -/

/-- What the parts of a response may be, and what they stand for. -/
structure Shape where
  stamp : Value → ℤ → Prop
  labels : List (String × Value) → Dict String String → Prop

/-- A timestamp as the server writes it: a text of at most nineteen digits. -/
def IsStamp (stamp : Value) (timestampNs : ℤ) : Prop :=
  ∃ text n, stamp = .str text ∧ text.toList.length ≤ 19 ∧ decimalDigits text.toList = some n ∧
    timestampNs = n

/-- Labels as the server writes them: an object of texts. -/
def IsTexts (rawLabels : List (String × Value)) (labels : Dict String String) : Prop :=
  ∃ texts : List (String × String), rawLabels = texts.map (fun m => (m.1, .str m.2)) ∧
    labels = .ofList texts

/-- The shape of the server's responses. -/
def Shape.public : Shape := ⟨IsStamp, IsTexts⟩

/-- The shape the code reads. -/
def Shape.read : Shape where
  stamp stamp timestampNs := stamp.toInt D = .ok timestampNs ∧ 0 ≤ timestampNs
  labels rawLabels labels := labels = decodeLabels render rawLabels

section

variable (S : Shape)

/-- An entry of a stream with these labels, and the line it stands for. -/
def IsEntry (labels : Dict String String) (raw : Value) (item : LokiLogLine) : Prop :=
  ∃ stamp rest, raw = .list (stamp :: .str item.line :: rest) ∧
    S.stamp stamp item.timestampNs ∧ item.labels = labels

/-- A stream and its lines. -/
def IsStream (stream : Value) (items : List LokiLogLine) : Prop :=
  ∃ rawLabels rawValues labels, stream.get? "stream" = some (.dict rawLabels) ∧
    stream.get? "values" = some (.list rawValues) ∧ S.labels rawLabels labels ∧
    Forall₂ (IsEntry S labels) rawValues items

/-- A response **of the shape** and its lines, in the order of the text. -/
def IsResponse (payload : Value) (items : List LokiLogLine) : Prop :=
  ∃ data streams parts, payload.get? "status" = some (.str "success") ∧
    payload.get? "data" = some data ∧ data.get? "resultType" = some (.str "streams") ∧
    data.get? "result" = some (.list streams) ∧
    Forall₂ (IsStream S) streams parts ∧ items = parts.flatten

end

/-- A stream of the response. -/
def HasStream (payload stream : Value) : Prop :=
  ∃ data streams, payload.get? "data" = some data ∧
    data.get? "result" = some (.list streams) ∧ stream ∈ streams

/-- A timestamp in the response. -/
def HasStamp (payload stamp : Value) : Prop :=
  ∃ stream rawValues rest, HasStream payload stream ∧
    stream.get? "values" = some (.list rawValues) ∧ .list (stamp :: rest) ∈ rawValues

/-- The labels of a stream of the response. -/
def HasLabels (payload : Value) (rawLabels : List (String × Value)) : Prop :=
  ∃ stream, HasStream payload stream ∧ stream.get? "stream" = some (.dict rawLabels)

/-- **A lax response**: all its parts can be read, but there is a timestamp that is no text of
digits, or a label that is no text. -/
def IsLax (payload : Value) : Prop :=
  (∃ items, IsResponse (.read D render) payload items) ∧
    ((∃ stamp, HasStamp payload stamp ∧ ¬ ∃ n, IsStamp stamp n) ∨
      ∃ rawLabels, HasLabels payload rawLabels ∧ ¬ ∃ labels, IsTexts rawLabels labels)

/-- What the JSON decoder returns has no infinite timestamp: a number out of range is an error
there. -/
def Decoded (payload : Value) : Prop := ∀ negative, ¬ HasStamp payload (.float (.infinite negative))

/-- Two lines are equal: labels are compared without their order. -/
def Same (a b : LokiLogLine) : Prop :=
  a.timestampNs = b.timestampNs ∧ a.line = b.line ∧ ∀ key, a.labels.get? key = b.labels.get? key

/-- The lines are the same in another order. -/
def SameEntries (items items' : List LokiLogLine) : Prop :=
  ∃ l, Forall₂ Same items l ∧ l.Perm items'

/-! ### The decoder accepts exactly the shape -/

variable {D render}

theorem memberIs_iff {value : Value} {name text : String} :
    memberIs value name text = true ↔ value.get? name = some (.str text) := by
  unfold memberIs
  split
  · next text' h => simp [h]
  · rename_i h
    simp only [Bool.false_eq_true, false_iff]
    exact h text

variable {labels : Dict String String}

variable (render) in
theorem decodeEntry_eq_ok_iff {raw : Value} {item : LokiLogLine} :
    decodeEntry D labels raw = .ok item ↔ IsEntry (.read D render) labels raw item := by
  constructor
  · intro h
    unfold decodeEntry at h
    split at h
    · rename_i stamp line rest
      split at h
      · cases h
      · cases h
      · cases h
      · rename_i timestampNs hstamp
        split at h
        · cases h
        · rename_i hneg
          cases h
          exact ⟨stamp, rest, rfl, ⟨hstamp, not_lt.mp hneg⟩, rfl⟩
    · cases h
  · rintro ⟨stamp, rest, rfl, ⟨hstamp, hnonneg⟩, rfl⟩
    simp only [decodeEntry, hstamp, if_neg (not_lt.mpr hnonneg)]

theorem decodeStream_eq_ok_iff {stream : Value} {items : List LokiLogLine} :
    decodeStream D render stream = .ok items ↔ IsStream (.read D render) stream items := by
  have hvalues : ∀ labels (rawValues : List Value),
      rawValues.mapM (decodeEntry D labels) = .ok items ↔
        Forall₂ (IsEntry (.read D render) labels) rawValues items := by
    intro labels rawValues
    simp only [mapM_eq_ok_iff, decodeEntry_eq_ok_iff render]
  constructor
  · intro h
    unfold decodeStream at h
    split at h
    · split at h
      · next hstream hitems => exact ⟨_, _, _, hstream, hitems, rfl, (hvalues _ _).mp h⟩
      · cases h
    · cases h
  · rintro ⟨rawLabels, rawValues, _, hstream, hitems, rfl, hentries⟩
    cases stream with
    | dict members =>
      simp only [decodeStream, hstream, hitems]
      exact (hvalues _ _).mpr hentries
    | _ => cases hstream

theorem decodeLines_cases (payload : Value) (direction : QueryDirection) :
    (∃ msg, decodeLines D render payload direction = .error (.lokiQueryError msg)) ∨
    ∃ data streams, payload.get? "status" = some (.str "success") ∧
      payload.get? "data" = some data ∧ data.get? "resultType" = some (.str "streams") ∧
      data.get? "result" = some (.list streams) ∧
      decodeLines D render payload direction =
        (streams.mapM (decodeStream D render)).map fun lines =>
          sortOn sortKey (direction = .backward) lines.flatten := by
  simp only [decodeLines]
  split
  · exact .inl ⟨_, rfl⟩
  · rename_i hstatus
    split
    · exact .inl ⟨_, rfl⟩
    · rename_i htype
      rw [Bool.not_eq_false, memberIs_iff] at hstatus htype
      split
      · rename_i streams hresult
        cases hdata : payload.get? "data" with
        | none =>
          rw [hdata] at hresult
          cases hresult
        | some data =>
          rw [hdata] at hresult htype
          exact .inr ⟨data, streams, hstatus, rfl, htype, hresult, rfl⟩
      · exact .inl ⟨_, rfl⟩

/-- The decoder returns exactly on responses of the shape it reads. -/
theorem decodeLines_eq_ok_iff {payload : Value} {direction : QueryDirection}
    {out : List LokiLogLine} :
    decodeLines D render payload direction = .ok out ↔
      ∃ items, IsResponse (.read D render) payload items ∧
        out = sortOn sortKey (direction = .backward) items := by
  have hstreams : ∀ {streams : List Value} {parts : List (List LokiLogLine)},
      streams.mapM (decodeStream D render) = .ok parts ↔
        Forall₂ (IsStream (.read D render)) streams parts := by
    intro streams parts
    simp only [mapM_eq_ok_iff, decodeStream_eq_ok_iff]
  constructor
  · intro h
    rcases decodeLines_cases payload direction with
      ⟨msg, heq⟩ | ⟨data, streams, hstatus, hdata, htype, hresult, heq⟩
    · cases heq.symm.trans h
    · rw [heq] at h
      cases hparts : streams.mapM (decodeStream D render) with
      | error e =>
        rw [hparts] at h
        cases h
      | ok parts =>
        rw [hparts] at h
        cases h
        exact ⟨_, ⟨data, streams, parts, hstatus, hdata, htype, hresult, hstreams.mp hparts, rfl⟩,
          rfl⟩
  · rintro ⟨_, ⟨data, streams, parts, hstatus, hdata, htype, hresult, hparts, rfl⟩, rfl⟩
    simp only [decodeLines, memberIs_iff.mpr hstatus, hdata, Option.getD_some,
      memberIs_iff.mpr htype, hresult, hstreams.mpr hparts]
    rfl

/-! ### What the decoder raises -/

variable {exc : Json.Raised}

theorem infinite_of_toInt {v : Value} (h : v.toInt D = .error exc)
    (htype : exc ≠ .typeError) (hvalue : exc ≠ .valueError) :
    ∃ negative, v = .float (.infinite negative) := by
  unfold Value.toInt at h
  split at h
  case h_4 negative => exact ⟨negative, rfl⟩
  case h_6 =>
    split at h
    · cases h
    · cases h
      exact absurd rfl hvalue
  case h_5 =>
    cases h
    exact absurd rfl hvalue
  all_goals cases h
  all_goals exact absurd rfl htype

theorem decodeEntry_uncaught {raw : Value} (h : decodeEntry D labels raw = .error (.uncaught exc)) :
    ∃ negative rest, raw = .list (.float (.infinite negative) :: rest) := by
  unfold decodeEntry at h
  split at h
  · rename_i stamp line rest
    split at h
    · cases h
    · cases h
    · rename_i exc' htype hvalue hstamp
      obtain ⟨negative, rfl⟩ := infinite_of_toInt hstamp htype hvalue
      exact ⟨negative, _, rfl⟩
    · split at h <;> cases h
  · cases h

theorem decodeStream_uncaught {stream : Value}
    (h : decodeStream D render stream = .error (.uncaught exc)) :
    ∃ negative rawValues rest, stream.get? "values" = some (.list rawValues) ∧
      .list (.float (.infinite negative) :: rest) ∈ rawValues := by
  unfold decodeStream at h
  split at h
  · split at h
    · rename_i hitems
      obtain ⟨raw, hmem, hraw⟩ := exists_of_mapM_eq_error h
      obtain ⟨negative, rest, rfl⟩ := decodeEntry_uncaught hraw
      exact ⟨negative, _, rest, hitems, hmem⟩
    · cases h
  · cases h

/-- **Whatever is not caught** comes from an infinite timestamp in the response. -/
theorem decodeLines_uncaught {payload : Value} {direction : QueryDirection}
    (h : decodeLines D render payload direction = .error (.uncaught exc)) :
    ∃ negative, HasStamp payload (.float (.infinite negative)) := by
  rcases decodeLines_cases payload direction with
    ⟨msg, heq⟩ | ⟨data, streams, -, hdata, -, hresult, heq⟩
  · cases heq.symm.trans h
  · rw [heq] at h
    cases hparts : streams.mapM (decodeStream D render) with
    | ok parts =>
      rw [hparts] at h
      cases h
    | error e =>
      rw [hparts] at h
      cases h
      obtain ⟨stream, hmem, hstream⟩ := exists_of_mapM_eq_error hparts
      obtain ⟨negative, rawValues, rest, hvalues, hentry⟩ := decodeStream_uncaught hstream
      exact ⟨negative, stream, rawValues, rest, ⟨data, streams, hdata, hresult, hmem⟩, hvalues,
        hentry⟩

/-! ### The sort key -/

theorem sortedLabels_eq_iff {labels' : Dict String String} :
    sortedLabels labels = sortedLabels labels' ↔ ∀ key, labels.get? key = labels'.get? key := by
  have hkeys : sortedLabels labels = sortedLabels labels' ↔
      labels.entries.Perm labels'.entries := by
    constructor
    · intro h
      have hperm := ((sortOn_perm id false (labels.entries.map toLex)).symm.trans
        (Perm.of_eq h)).trans (sortOn_perm id false (labels'.entries.map toLex))
      exact (map_perm_map_iff toLex.injective).mp hperm
    · intro h
      have hmap := map_sortOn_eq_of_perm id false ((h.map toLex).map id)
      rwa [map_id, map_id] at hmap
  rw [hkeys, perm_ext_iff_of_nodup (.of_map _ labels.nodup) (.of_map _ labels'.nodup)]
  constructor
  · intro h key
    refine Option.ext fun value => ?_
    rw [← Dict.mem_entries_iff, ← Dict.mem_entries_iff]
    exact h (key, value)
  · rintro h ⟨key, value⟩
    rw [Dict.mem_entries_iff, Dict.mem_entries_iff, h]

/-- **The sort key determines the line**, up to the order of its labels. -/
theorem sortKey_eq_iff {a b : LokiLogLine} : sortKey a = sortKey b ↔ Same a b := by
  rw [sortKey, sortKey, toLex_inj, Prod.mk.injEq, toLex_inj, Prod.mk.injEq, sortedLabels_eq_iff,
    Same]
  tauto

theorem SameEntries.sorted {items items' : List LokiLogLine} (h : SameEntries items items')
    (reverse : Bool) :
    Forall₂ Same (sortOn sortKey reverse items) (sortOn sortKey reverse items') := by
  obtain ⟨l, hsame, hperm⟩ := h
  have hmap : items.map sortKey = l.map sortKey := by
    rw [← forall₂_eq_eq_eq, forall₂_map_left_iff, forall₂_map_right_iff]
    exact hsame.imp fun a b => sortKey_eq_iff.mpr
  have hkeys := map_sortOn_eq_of_perm sortKey reverse (hmap ▸ hperm.map sortKey)
  rw [← forall₂_eq_eq_eq, forall₂_map_left_iff, forall₂_map_right_iff] at hkeys
  exact hkeys.imp fun a b => sortKey_eq_iff.mp

/-! ### The two shapes -/

section

variable {S S' : Shape} {payload : Value} {items : List LokiLogLine}

/-- A response is of another shape if its timestamps and labels are. -/
theorem IsResponse.imp (h : IsResponse S payload items)
    (hstamps : ∀ stamp n, HasStamp payload stamp → S.stamp stamp n → S'.stamp stamp n)
    (hlabels : ∀ rawLabels labels, HasLabels payload rawLabels → S.labels rawLabels labels →
      S'.labels rawLabels labels) : IsResponse S' payload items := by
  obtain ⟨data, streams, parts, hstatus, hdata, htype, hresult, hparts, rfl⟩ := h
  refine ⟨data, streams, parts, hstatus, hdata, htype, hresult, ?_, rfl⟩
  have hstreams : ∀ stream ∈ streams, HasStream payload stream :=
    fun stream hmem => ⟨data, streams, hdata, hresult, hmem⟩
  refine Forall₂.imp ?_ ((forall₂_and_left ..).mpr ⟨hstreams, hparts⟩)
  rintro stream part ⟨hstream, rawLabels, rawValues, labels, hget, hvalues, hread, hentries⟩
  refine ⟨rawLabels, rawValues, labels, hget, hvalues,
    hlabels rawLabels labels ⟨stream, hstream, hget⟩ hread, ?_⟩
  refine Forall₂.imp ?_ ((forall₂_and_left ..).mpr ⟨fun _ => id, hentries⟩)
  rintro raw item ⟨hmem, stamp, rest, rfl, hstamp, hitem⟩
  exact ⟨stamp, rest, rfl, hstamps stamp _ ⟨stream, rawValues, _, hstream, hvalues, hmem⟩ hstamp,
    hitem⟩

/-- The streams of a response of the shape are of the shape. -/
theorem IsResponse.stream (h : IsResponse S payload items) {stream : Value}
    (hstream : HasStream payload stream) : ∃ part, IsStream S stream part := by
  obtain ⟨data, streams, parts, -, hdata, -, hresult, hparts, -⟩ := h
  obtain ⟨_, _, hdata', hresult', hmem⟩ := hstream
  cases hdata.symm.trans hdata'
  cases hresult.symm.trans hresult'
  exact exists_of_mem_forall₂ hparts hmem

theorem IsResponse.stamp (h : IsResponse S payload items) {stamp : Value}
    (hstamp : HasStamp payload stamp) : ∃ n, S.stamp stamp n := by
  obtain ⟨stream, _, rest, hstream, hvalues, hmem⟩ := hstamp
  obtain ⟨part, _, rawValues, labels, -, hvalues', -, hentries⟩ := h.stream hstream
  cases hvalues.symm.trans hvalues'
  obtain ⟨item, stamp', _, heq, hread, -⟩ := exists_of_mem_forall₂ hentries hmem
  cases heq
  exact ⟨_, hread⟩

theorem IsResponse.rawLabels (h : IsResponse S payload items) {rawLabels : List (String × Value)}
    (hlabels : HasLabels payload rawLabels) : ∃ labels, S.labels rawLabels labels := by
  obtain ⟨stream, hstream, hget⟩ := hlabels
  obtain ⟨part, _, rawValues, labels, hget', -, hread, -⟩ := h.stream hstream
  cases hget.symm.trans hget'
  exact ⟨labels, hread⟩

variable (D render) in
theorem IsStamp.read {stamp : Value} {n : ℤ} (h : IsStamp stamp n) :
    (Shape.read D render).stamp stamp n := by
  obtain ⟨text, m, rfl, hlength, hdigits, rfl⟩ := h
  refine ⟨?_, Int.natCast_nonneg m⟩
  rcases pythonInt_of_decimal D (decimal_of_digits hdigits) with ⟨hmany, -⟩ | hparse
  · exact absurd (hmany.trans_le hlength) (by decide)
  · rw [Value.toInt, hparse]

theorem IsTexts.read {rawLabels : List (String × Value)} (h : IsTexts rawLabels labels) :
    labels = decodeLabels render rawLabels := by
  obtain ⟨texts, rfl, rfl⟩ := h
  rw [decodeLabels, map_map]
  exact congrArg Dict.ofList (map_id texts).symm

/-- A response of the server can be read, as what it is. -/
theorem IsResponse.read (h : IsResponse .public payload items) :
    IsResponse (.read D render) payload items :=
  h.imp (fun _ _ _ hstamp => hstamp.read D render) fun _ _ _ hlabels => hlabels.read

/-- A response that can be read is **of the public shape or lax**. -/
theorem IsResponse.public_iff (h : IsResponse (.read D render) payload items) :
    IsResponse .public payload items ↔ ¬ IsLax D render payload := by
  constructor
  · rintro hpublic ⟨-, ⟨stamp, hstamp, hnot⟩ | ⟨rawLabels, hlabels, hnot⟩⟩
    · exact hnot (hpublic.stamp hstamp)
    · exact hnot (hpublic.rawLabels hlabels)
  · intro hlax
    refine h.imp (fun stamp n hstamp hread => ?_) fun rawLabels labels hlabels hread => ?_
    · have hexists : ∃ n, IsStamp stamp n :=
        not_not.mp fun hnot => hlax ⟨⟨items, h⟩, .inl ⟨stamp, hstamp, hnot⟩⟩
      obtain ⟨m, hm⟩ := hexists
      obtain rfl : m = n := Except.ok.inj ((hm.read D render).1.symm.trans hread.1)
      exact hm
    · have hexists : ∃ labels, IsTexts rawLabels labels :=
        not_not.mp fun hnot => hlax ⟨⟨items, h⟩, .inr ⟨rawLabels, hlabels, hnot⟩⟩
      obtain ⟨texts, htexts⟩ := hexists
      exact (htexts.read.trans hread.symm) ▸ htexts

end

/-! ### Canonical results -/

/-- **Loki results are merged canonically exactly unless the response is lax**: a well-formed
response gives each of its lines once, in the order of the keys, whatever their order in it, and any
other is a `LokiQueryError`. -/
theorem decodeLines_canonical_iff {payload : Value} (hdecoded : Decoded payload)
    (direction : QueryDirection) :
    ((∀ items, IsResponse .public payload items →
      ∃ out, decodeLines D render payload direction = .ok out ∧ out.Perm items ∧
        out.Pairwise fun a b => keyLE (direction = .backward) (sortKey a) (sortKey b)) ∧
    (∀ payload' items items', IsResponse .public payload items →
      IsResponse .public payload' items' → SameEntries items items' →
      ∃ out out', decodeLines D render payload direction = .ok out ∧
        decodeLines D render payload' direction = .ok out' ∧ Forall₂ Same out out') ∧
    ((¬∃ items, IsResponse .public payload items) →
      ∃ msg, decodeLines D render payload direction = .error (.lokiQueryError msg))) ↔
    ¬ IsLax D render payload := by
  constructor
  · rintro ⟨-, -, hrefused⟩ hlax
    obtain ⟨items, h⟩ := hlax.1
    obtain ⟨msg, herror⟩ := hrefused fun hpublic => by
      obtain ⟨items', h'⟩ := hpublic
      exact (IsResponse.public_iff h'.read).mp h' hlax
    cases herror.symm.trans (decodeLines_eq_ok_iff.mpr ⟨items, h, rfl⟩)
  · intro hlax
    refine ⟨fun items h => ?_, fun payload' items items' h h' hsame => ?_, fun hnot => ?_⟩
    · exact ⟨_, decodeLines_eq_ok_iff.mpr ⟨items, h.read, rfl⟩, sortOn_perm _ _ _,
        pairwise_sortOn _ _ _⟩
    · exact ⟨_, _, decodeLines_eq_ok_iff.mpr ⟨items, h.read, rfl⟩,
        decodeLines_eq_ok_iff.mpr ⟨items', h'.read, rfl⟩, hsame.sorted _⟩
    · cases hout : decodeLines D render payload direction with
      | ok out =>
        obtain ⟨items, h, -⟩ := decodeLines_eq_ok_iff.mp hout
        exact absurd ⟨items, h.public_iff.mpr hlax⟩ hnot
      | error raised =>
        cases raised with
        | lokiQueryError msg => exact ⟨msg, rfl⟩
        | uncaught exc =>
          obtain ⟨negative, hstamp⟩ := decodeLines_uncaught hout
          exact absurd hstamp (hdecoded negative)

/-- A response with one entry. -/
def oneEntry (stamp : Value) : Value :=
  .dict [("status", .str "success"), ("data", .dict [("resultType", .str "streams"),
    ("result", .list [.dict [("stream", .dict [("job", .str "api")]),
      ("values", .list [.list [stamp, .str "x"]])]])])]

theorem isResponse_oneEntry {S : Shape} {stamp : Value} {n : ℤ} (hstamp : S.stamp stamp n)
    (hlabels : S.labels [("job", .str "api")] labels) :
    IsResponse S (oneEntry stamp) [⟨n, "x", labels⟩] :=
  ⟨_, _, [[⟨n, "x", labels⟩]], rfl, rfl, rfl, rfl,
    .cons ⟨_, _, _, rfl, rfl, hlabels, .cons ⟨stamp, [], rfl, hstamp, rfl⟩ .nil⟩ .nil, rfl⟩

theorem hasStamp_oneEntry {stamp stamp' : Value} :
    HasStamp (oneEntry stamp) stamp' ↔ stamp' = stamp := by
  constructor
  · rintro ⟨stream, rawValues, rest, ⟨data, streams, hdata, hresult, hmem⟩, hvalues, hentry⟩
    cases hdata
    cases hresult
    cases mem_singleton.mp hmem
    cases hvalues
    cases mem_singleton.mp hentry
    rfl
  · rintro rfl
    exact ⟨_, _, _, ⟨_, _, rfl, rfl, mem_singleton_self _⟩, rfl, mem_singleton_self _⟩

/-- A response as the server writes it. -/
theorem one_entry_merged :
    ∃ item, decodeLines .ascii (fun _ => "") (oneEntry (.str "12")) .backward = .ok [item] ∧
      item.timestampNs = 12 := by
  have hstamp : IsStamp (.str "12") 12 := ⟨"12", 12, rfl, by decide, by decide, rfl⟩
  have hresponse := isResponse_oneEntry (S := .public) hstamp ⟨[("job", "api")], rfl, rfl⟩
  have hdecoded : Decoded (oneEntry (.str "12")) := fun _ h => by cases hasStamp_oneEntry.mp h
  obtain ⟨out, hout, hperm, -⟩ := ((decodeLines_canonical_iff hdecoded .backward).mpr
    ((IsResponse.public_iff hresponse.read).mp hresponse)).1 _ hresponse
  obtain rfl := perm_singleton.mp hperm
  exact ⟨_, hout, rfl⟩

/-- **A truth value is read as a timestamp.** -/
theorem boolean_timestamp_read :
    (¬ ∃ items, IsResponse .public (oneEntry (.bool true)) items) ∧
      ∃ item, decodeLines .ascii (fun _ => "") (oneEntry (.bool true)) .forward = .ok [item] ∧
        item.timestampNs = 1 := by
  constructor
  · rintro ⟨items, h⟩
    obtain ⟨n, text, m, ⟨⟩, -⟩ := h.stamp (hasStamp_oneEntry.mpr rfl)
  · refine ⟨⟨1, "x", .ofList [("job", "api")]⟩, decodeLines_eq_ok_iff.mpr
      ⟨_, isResponse_oneEntry ⟨rfl, by decide⟩ rfl, ?_⟩, rfl⟩
    exact (perm_singleton.mp (sortOn_perm _ _ _)).symm

end ServiceToolkit.Loki
