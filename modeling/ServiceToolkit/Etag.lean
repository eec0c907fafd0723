import ServiceToolkit.Runs
import ServiceToolkit.Words

/-!
# Conditional Requests

`ETagMiddleware` stands between an application and its server and sees the messages of a response
one by one: a start with status and headers, then pieces of the body. A response it may tag is
held back until its last piece (`Buffer`), and then sent as a whole with an `ETag`, or as a `304`
if the client already has it. Every other response goes through piece by piece.

The digest of the body is a parameter: 16 bytes, whatever they are.
-/

namespace ServiceToolkit.Etag

/-! ### Bytes -/

/-- A byte string. -/
abbrev Bytes := List UInt8

/-- The bytes of an ASCII text. -/
def ascii (text : String) : Bytes := text.toList.map fun c => UInt8.ofNat c.toNat

/-- `bytes.lower()`: only ASCII letters change. -/
def lower (b : Bytes) : Bytes := b.map fun c => if 65 ≤ c && c ≤ 90 then c + 32 else c

/-- The bytes `bytes.strip()` removes. -/
def isBlank (c : UInt8) : Bool := c == 32 || (9 ≤ c && c ≤ 13)

/-- `bytes.strip()`. -/
def strip (b : Bytes) : Bytes := Words.trim isBlank b

/-- `bytes.lstrip(b"W/")`: the two characters in any number and order. -/
def lstripWeak (b : Bytes) : Bytes := b.dropWhile fun c => c == 87 || c == 47

/-- The quotation mark. -/
def quoteMark : UInt8 := 34

/-- The comma. -/
def comma : UInt8 := 44

/-! ### Headers and tags -/

/-- Header lines in their order. -/
abbrev Headers := List (Bytes × Bytes)

/-- A header line of a name, in any case. -/
def isNamed (name : Bytes) (line : Bytes × Bytes) : Bool := lower line.1 == lower name

/-- `_header`: the first line of a name. -/
def header (headers : Headers) (name : Bytes) : Option Bytes :=
  (headers.find? (isNamed name)).map Prod.snd

/-- A digest of 16 bytes. -/
abbrev Digest := Bytes → Vector UInt8 16

/-- A hexadecimal digit. -/
def hexDigit (n : ℕ) : UInt8 := UInt8.ofNat (Nat.digitChar n).toNat

/-- The two hexadecimal digits of a byte. -/
def hexByte (b : UInt8) : Bytes := [hexDigit (b.toNat / 16), hexDigit (b.toNat % 16)]

/-- `blake2b(body, digest_size=16).hexdigest()`. -/
def hexdigest (blake2b : Digest) (body : Bytes) : Bytes := (blake2b body).toList.flatMap hexByte

/-- `_compute_etag`, as the bytes that are sent. -/
def computeEtag (blake2b : Digest) (body : Bytes) : Bytes :=
  quoteMark :: (hexdigest blake2b body ++ [quoteMark])

/-- A candidate of an `If-None-Match` as it is compared. -/
def candidateTag (candidate : Bytes) : Bytes := strip (lstripWeak (strip candidate))

/-- `_etag_matches`. -/
def etagMatches (ifNoneMatch etag : Bytes) : Bool :=
  let raw := strip ifNoneMatch
  let target := strip (lstripWeak etag)
  raw == ascii "*" || (raw.splitOn comma).any fun candidate => candidateTag candidate == target

/-! ### The middleware -/

/-- A message of a response. The keys of a body message may be missing. -/
inductive Message
  | start (status : ℤ) (headers : Headers)
  | body (body : Option Bytes) (moreBody : Option Bool)
  | other (type : Bytes)
  deriving DecidableEq

/-- `_DEFAULT_CACHE_CONTROL`. -/
def defaultCacheControl : Bytes := ascii "private, no-cache"

/-- `_CARRIED_ON_304`. -/
def carriedOn304 : List Bytes :=
  [ascii "cache-control", ascii "content-location", ascii "date", ascii "expires", ascii "vary"]

/-- The last message of a response. -/
def lastBody (body : Bytes) : Message := .body (some body) (some false)

/-- The headers with the default policy, if they have none. -/
def withPolicy (headers : Headers) : Headers :=
  if header headers (ascii "cache-control") = none then
    headers ++ [(ascii "cache-control", defaultCacheControl)]
  else headers

/-- The line of the tag. -/
def tagLine (etag : Bytes) : Bytes × Bytes := (ascii "etag", etag)

/-- `_finalize`: the messages it sends, and the start message as it leaves it. -/
def finalize (blake2b : Digest) (startMessage : Option (ℤ × Headers)) (body : Bytes)
    (ifNoneMatch : Option Bytes) : List Message × Option (ℤ × Headers) :=
  match startMessage with
  | none => ([lastBody body], none)
  | some (status, headers) =>
    if body = [] then ([.start status headers, lastBody body], some (status, headers))
    else
      let etag := computeEtag blake2b body
      let headers := withPolicy headers
      if ifNoneMatch.any (etagMatches · etag) then
        let carried := headers.filter (fun line => carriedOn304.contains (lower line.1))
        let headers := carried ++ [tagLine etag]
        ([.start 304 headers, lastBody []], some (304, headers))
      else
        let headers := headers ++ [tagLine etag]
        ([.start status headers, lastBody body], some (status, headers))

/-- The variables `send_wrapper` shares with `__call__`. -/
structure Buffer where
  startMessage : Option (ℤ × Headers) := none
  bodyChunks : List Bytes := []
  passthrough : Bool := false

/-- A start that is sent on as it is. -/
def passes (status : ℤ) (headers : Headers) : Bool :=
  let cacheControl := (header headers (ascii "cache-control")).getD []
  let alreadyTagged := (header headers (ascii "etag")).isSome
  status < 200 || status ≥ 300 || alreadyTagged ||
    decide (ascii "no-store" <:+: lower cacheControl)

/-- `send_wrapper`: the messages it sends for one message of the application. -/
def sendWrapper (blake2b : Digest) (ifNoneMatch : Option Bytes) (b : Buffer) (message : Message) :
    List Message × Buffer :=
  if b.passthrough then ([message], b)
  else
    match message with
    | .start status headers =>
      if passes status headers then ([message], { b with passthrough := true })
      else ([], { b with startMessage := some (status, headers) })
    | .body body moreBody =>
      let chunks := b.bodyChunks ++ [body.getD []]
      let b := { b with bodyChunks := chunks }
      if moreBody.getD false then ([], b)
      else
        let (sent, startMessage) := finalize blake2b b.startMessage chunks.flatten ifNoneMatch
        (sent, { b with startMessage })
    | .other _ => ([message], b)

/-- What the middleware reads of a scope. -/
structure Scope where
  type : Bytes
  method : Option Bytes
  path : List Char
  headers : Headers

/-- **The middleware**. A pattern of `exclude` is the test whether it is found in a path. -/
structure Middleware where
  exclude : List (List Char → Bool) := []

/-- A request whose response the middleware looks at. -/
def Middleware.applies (mw : Middleware) (scope : Scope) : Bool :=
  scope.type == ascii "http" && scope.method == some (ascii "GET") &&
    !mw.exclude.any fun found => found scope.path

/-- `__call__`: the messages that reach the client, from those the application sends. -/
def Middleware.call (mw : Middleware) (blake2b : Digest) (scope : Scope)
    (messages : List Message) : List Message :=
  if mw.applies scope then
    let ifNoneMatch := header scope.headers (ascii "if-none-match")
    (answers (sendWrapper blake2b ifNoneMatch) {} messages).flatten
  else messages

/-! ### Responses -/

/-- **A response**: one start, pieces of the body that announce more, and a last one that does
not. -/
structure Response where
  status : ℤ
  headers : Headers
  chunks : List (Option Bytes)
  last : Option Bytes
  lastMore : Option Bool
  lastMore_ne : lastMore ≠ some true

namespace Response

/-- The messages of the body. -/
def bodyMessages (r : Response) : List Message :=
  r.chunks.map (.body · (some true)) ++ [.body r.last r.lastMore]

/-- The messages of the application. -/
def messages (r : Response) : List Message := .start r.status r.headers :: r.bodyMessages

/-- The concatenated body. -/
def fullBody (r : Response) : Bytes := (r.chunks.map (·.getD [])).flatten ++ r.last.getD []

/-- The response goes through as it is: it is no success, has a tag or is not to be stored. -/
def PassesThrough (r : Response) : Prop :=
  ¬ (200 ≤ r.status ∧ r.status < 300) ∨ header r.headers (ascii "etag") ≠ none ∨
    ∃ policy, header r.headers (ascii "cache-control") = some policy ∧
      ascii "no-store" <:+: lower policy

/-- Two responses that differ in the pieces of their bodies at most. -/
def Like (r r' : Response) : Prop :=
  r.status = r'.status ∧ r.headers = r'.headers ∧ r.fullBody = r'.fullBody

end Response

/-- The status and headers of a start. -/
def Message.head : Message → Option (ℤ × Headers)
  | start status headers => some (status, headers)
  | body .. | other _ => none

/-- The bytes of a piece of the body. -/
def Message.bytes : Message → Bytes
  | body bytes _ => bytes.getD []
  | start .. | other _ => []

/-- What the client makes of messages: the first start and the concatenated body. -/
def received (messages : List Message) : Option (ℤ × Headers) × Bytes :=
  (messages.findSome? Message.head, messages.flatMap Message.bytes)

/-! ### Running a response -/

section

variable {blake2b : Digest} {ifNoneMatch : Option Bytes} {b : Buffer}

theorem answers_passthrough (hb : b.passthrough = true) (messages : List Message) :
    (answers (sendWrapper blake2b ifNoneMatch) b messages).flatten = messages := by
  induction messages with
  | nil => rfl
  | cons m messages ih =>
    have hstep : sendWrapper blake2b ifNoneMatch b m = ([m], b) := by
      simp [sendWrapper, hb]
    rw [answers, hstep, List.flatten_cons, ih, List.singleton_append]

theorem sendWrapper_chunk (hb : b.passthrough = false) (chunk : Option Bytes) :
    sendWrapper blake2b ifNoneMatch b (.body chunk (some true)) =
      ([], { b with bodyChunks := b.bodyChunks ++ [chunk.getD []] }) := by
  simp [sendWrapper, hb]

theorem sendWrapper_last (hb : b.passthrough = false) (last : Option Bytes)
    {more : Option Bool} (hmore : more ≠ some true) :
    (sendWrapper blake2b ifNoneMatch b (.body last more)).1 =
      (finalize blake2b b.startMessage (b.bodyChunks ++ [last.getD []]).flatten ifNoneMatch).1 := by
  have hfalse : more.getD false = false := by
    cases more with
    | none => rfl
    | some m => simpa using hmore
  simp [sendWrapper, hb, hfalse]

/-- **Held pieces are only collected**: what is sent depends on the concatenation of those already
kept and those to come. -/
theorem answers_chunks (hb : b.passthrough = false) (chunks : List (Option Bytes))
    (last : Option Bytes) {more : Option Bool} (hmore : more ≠ some true) :
    (answers (sendWrapper blake2b ifNoneMatch) b
        (chunks.map (.body · (some true)) ++ [.body last more])).flatten =
      (finalize blake2b b.startMessage
        (b.bodyChunks.flatten ++ ((chunks.map (·.getD [])).flatten ++ last.getD []))
        ifNoneMatch).1 := by
  induction chunks generalizing b with
  | nil =>
    rw [List.map_nil, List.nil_append, answers, answers, List.flatten_singleton,
      sendWrapper_last hb last hmore]
    simp
  | cons chunk chunks ih =>
    rw [List.map_cons, List.cons_append, answers, sendWrapper_chunk hb, List.flatten_cons,
      List.nil_append, ih (b := { b with bodyChunks := b.bodyChunks ++ [chunk.getD []] }) hb]
    simp

theorem passes_iff (r : Response) : passes r.status r.headers = true ↔ r.PassesThrough := by
  have hempty : ¬ ascii "no-store" <:+: lower [] := by decide
  rw [passes, Response.PassesThrough]
  cases h : header r.headers (ascii "cache-control") with
  | none => simp [hempty, Option.isSome_iff_ne_none, or_assoc, imp_iff_not_or]
  | some policy => simp [Option.isSome_iff_ne_none, or_assoc, imp_iff_not_or]

theorem answers_passes {r : Response} (h : r.PassesThrough) :
    (answers (sendWrapper blake2b ifNoneMatch) {} r.messages).flatten = r.messages := by
  have hstart : sendWrapper blake2b ifNoneMatch {} (.start r.status r.headers) =
      ([.start r.status r.headers], { passthrough := true }) := by
    simp [sendWrapper, (passes_iff r).mpr h]
  rw [Response.messages, answers, hstart, List.flatten_cons, answers_passthrough rfl,
    List.singleton_append]

theorem answers_held {r : Response} (h : ¬ r.PassesThrough) :
    (answers (sendWrapper blake2b ifNoneMatch) {} r.messages).flatten =
      (finalize blake2b (some (r.status, r.headers)) r.fullBody ifNoneMatch).1 := by
  have hstart : sendWrapper blake2b ifNoneMatch {} (.start r.status r.headers) =
      ([], { startMessage := some (r.status, r.headers) }) := by
    simp [sendWrapper, mt (passes_iff r).mp h]
  rw [Response.messages, answers, hstart, List.flatten_cons, List.nil_append,
    Response.bodyMessages, answers_chunks rfl _ _ r.lastMore_ne]
  rfl

theorem finalize_empty (status : ℤ) (headers : Headers) :
    (finalize blake2b (some (status, headers)) [] ifNoneMatch).1 =
      [.start status headers, lastBody []] := by
  simp [finalize]

theorem finalize_full {body : Bytes} (hbody : body ≠ []) (status : ℤ) (headers : Headers)
    (h : ifNoneMatch.any (etagMatches · (computeEtag blake2b body)) = false) :
    (finalize blake2b (some (status, headers)) body ifNoneMatch).1 =
      [.start status (withPolicy headers ++ [tagLine (computeEtag blake2b body)]),
        lastBody body] := by
  simp [finalize, hbody, h]

theorem finalize_current {body : Bytes} (hbody : body ≠ []) (status : ℤ) (headers : Headers)
    (h : ifNoneMatch.any (etagMatches · (computeEtag blake2b body)) = true) :
    (finalize blake2b (some (status, headers)) body ifNoneMatch).1 =
      [.start 304 ((withPolicy headers).filter (fun line => carriedOn304.contains (lower line.1)) ++
        [tagLine (computeEtag blake2b body)]), lastBody []] := by
  simp [finalize, hbody, h]

end

/-! ### Lines of a name -/

variable {headers : Headers}

theorem header_eq_none_iff {name : Bytes} :
    header headers name = none ↔ ∀ line ∈ headers, isNamed name line = false := by
  simp [header]

theorem withPolicy_untagged (h : header headers (ascii "etag") = none) :
    (withPolicy headers).filter (isNamed (ascii "etag")) = [] := by
  rw [header_eq_none_iff] at h
  have hpolicy : isNamed (ascii "etag") (ascii "cache-control", defaultCacheControl) = false := by
    decide
  rw [List.filter_eq_nil_iff, withPolicy]
  intro line hline
  split at hline
  · rcases List.mem_append.mp hline with hmem | hmem
    · simp [h line hmem]
    · simp [List.mem_singleton.mp hmem, hpolicy]
  · simp [h line hline]

theorem lower_of_carried {name : Bytes} (h : name ∈ carriedOn304) :
    lower name = name ∧ name ≠ ascii "etag" := by
  have hall : ∀ name ∈ carriedOn304, lower name = name ∧ name ≠ ascii "etag" := by decide
  exact hall name h

theorem filter_carried {name : Bytes} (h : name ∈ carriedOn304) (headers : Headers) :
    (headers.filter fun line => carriedOn304.contains (lower line.1)).filter (isNamed name) =
      headers.filter (isNamed name) := by
  rw [List.filter_filter]
  refine List.filter_congr fun line _ => ?_
  have himp : isNamed name line = true → carriedOn304.contains (lower line.1) = true := by
    intro hline
    rw [isNamed, beq_iff_eq, (lower_of_carried h).1] at hline
    rw [hline]
    exact List.contains_iff_mem.mpr h
  cases hline : isNamed name line with
  | false => rfl
  | true => rw [himp hline, Bool.true_and]

theorem filter_carried_untagged :
    (headers.filter fun line => carriedOn304.contains (lower line.1)).filter
      (isNamed (ascii "etag")) = [] := by
  rw [List.filter_filter, List.filter_eq_nil_iff]
  intro line _ hline
  rw [Bool.and_eq_true, isNamed, beq_iff_eq] at hline
  have hcarried := List.contains_iff_mem.mp hline.2
  rw [hline.1] at hcarried
  exact (lower_of_carried hcarried).2 (by decide)

/-! ### What the client gets -/

/-- The first `If-None-Match` line of a request covers a tag. -/
def Scope.covers (scope : Scope) (etag : Bytes) : Bool :=
  (header scope.headers (ascii "if-none-match")).any (etagMatches · etag)

theorem received_messages (r : Response) :
    received r.messages = (some (r.status, r.headers), r.fullBody) := by
  have hbytes : r.messages.flatMap Message.bytes = r.fullBody := by
    have hchunks : Message.bytes ∘ (Message.body · (some true)) = (·.getD []) := rfl
    simp [Response.messages, Response.bodyMessages, Response.fullBody, Message.bytes,
      List.flatMap_def, hchunks]
  rw [received, hbytes]
  rfl

theorem Response.Like.passesThrough {r r' : Response} (h : r.Like r') :
    r'.PassesThrough ↔ r.PassesThrough := by
  rw [PassesThrough, PassesThrough, h.1, h.2.1]

theorem call_of_applies {mw : Middleware} {scope : Scope} (h : mw.applies scope = true)
    (blake2b : Digest) (r : Response) :
    (r.PassesThrough → mw.call blake2b scope r.messages = r.messages) ∧
    (¬ r.PassesThrough → mw.call blake2b scope r.messages =
      (finalize blake2b (some (r.status, r.headers)) r.fullBody
        (header scope.headers (ascii "if-none-match"))).1) := by
  rw [Middleware.call, if_pos h]
  exact ⟨fun hpass => answers_passes hpass, fun hheld => answers_held hheld⟩

/-- **The pieces do not matter**: responses that differ in their pieces at most reach the client
as the same. -/
theorem received_call_congr {mw : Middleware} {scope : Scope} (h : mw.applies scope = true)
    (blake2b : Digest) {r r' : Response} (hlike : r.Like r') :
    received (mw.call blake2b scope r'.messages) = received (mw.call blake2b scope r.messages) := by
  by_cases hpass : r.PassesThrough
  · rw [(call_of_applies h blake2b r).1 hpass,
      (call_of_applies h blake2b r').1 (hlike.passesThrough.mpr hpass), received_messages,
      received_messages, hlike.1, hlike.2.1, hlike.2.2]
  · rw [(call_of_applies h blake2b r).2 hpass,
      (call_of_applies h blake2b r').2 (mt hlike.passesThrough.mp hpass), hlike.1, hlike.2.1,
      hlike.2.2]

/-- **The middleware is transparent up to validation**, for a `GET` of a path it does not exclude.
The `304` repeats of the full response the tag and every line it must carry. -/
theorem call_messages (mw : Middleware) (blake2b : Digest) (scope : Scope)
    (hget : scope.type = ascii "http" ∧ scope.method = some (ascii "GET"))
    (hpath : ∀ found ∈ mw.exclude, found scope.path = false) (r : Response) :
    let sent := mw.call blake2b scope r.messages
    let etag := computeEtag blake2b r.fullBody
    let full := withPolicy r.headers ++ [tagLine etag]
    (r.PassesThrough → sent = r.messages) ∧
    (¬ r.PassesThrough → r.fullBody = [] → sent = [.start r.status r.headers, lastBody []]) ∧
    (¬ r.PassesThrough → r.fullBody ≠ [] → scope.covers etag = false →
      sent = [.start r.status full, lastBody r.fullBody]) ∧
    (¬ r.PassesThrough → r.fullBody ≠ [] → scope.covers etag = true →
      ∃ headers, sent = [.start 304 headers, lastBody []] ∧ headers.Sublist full ∧
        ∀ name ∈ ascii "etag" :: carriedOn304,
          headers.filter (isNamed name) = full.filter (isNamed name)) ∧
    ∀ r' : Response, r.Like r' → received (mw.call blake2b scope r'.messages) = received sent := by
  intro sent etag full
  have happlies : mw.applies scope = true := by
    simp only [Middleware.applies, hget.1, hget.2, beq_self_eq_true, Bool.true_and,
      Bool.not_eq_true', List.any_eq_false]
    intro found hfound
    simp [hpath found hfound]
  obtain ⟨hpasses, hheld⟩ := call_of_applies happlies blake2b r
  refine ⟨hpasses, fun hno hbody => ?_, fun hno hbody hcovers => ?_, fun hno hbody hcovers => ?_,
    fun r' hlike => received_call_congr happlies blake2b hlike⟩
  · refine (hheld hno).trans ?_
    rw [hbody, finalize_empty]
  · exact (hheld hno).trans (finalize_full hbody _ _ hcovers)
  · refine ⟨_, (hheld hno).trans (finalize_current hbody _ _ hcovers),
      List.filter_sublist.append_right _, fun name hname => ?_⟩
    rw [List.filter_append, List.filter_append]
    rcases List.mem_cons.mp hname with rfl | hcarried
    · have huntagged : header r.headers (ascii "etag") = none := by
        by_contra htag
        exact hno (.inr (.inl htag))
      rw [filter_carried_untagged, withPolicy_untagged huntagged]
    · rw [filter_carried hcarried]

/-- A success with the body `hi` and no headers. -/
def plainResponse : Response :=
  { status := 200, headers := [], chunks := [some (ascii "h")], last := some (ascii "i"),
    lastMore := none, lastMore_ne := by decide }

/-- A `GET` with the given `If-None-Match` lines. -/
def getWith (tags : List Bytes) : Scope :=
  { type := ascii "http", method := some (ascii "GET"), path := ['/'],
    headers := tags.map fun tag => (ascii "if-none-match", tag) }

/-- A digest that is always zero. -/
def zeroDigest : Digest := fun _ => Vector.replicate 16 0

theorem call_plainResponse :
    Middleware.call {} zeroDigest (getWith [ascii "*"]) plainResponse.messages =
      [.start 304 [(ascii "cache-control", defaultCacheControl),
        tagLine (computeEtag zeroDigest (ascii "hi"))], lastBody []] ∧
    received (Middleware.call {} zeroDigest (getWith [ascii "*"])
        { plainResponse with chunks := [], last := some (ascii "hi") : Response }.messages) =
      received (Middleware.call {} zeroDigest (getWith [ascii "*"]) plainResponse.messages) :=
  ⟨by decide +kernel, (call_messages {} zeroDigest (getWith [ascii "*"]) ⟨rfl, rfl⟩ (by simp)
    plainResponse).2.2.2.2 { plainResponse with chunks := [], last := some (ascii "hi") }
    ⟨rfl, rfl, by decide⟩⟩

/-- A path that is excluded gets no tag, and a tag on a second `If-None-Match` line is not seen. -/
theorem excluded_untagged_and_second_line_unseen :
    Middleware.call { exclude := [fun path => path == ['/']] } zeroDigest (getWith [])
        plainResponse.messages = plainResponse.messages ∧
    Middleware.call {} zeroDigest
        (getWith [[quoteMark, quoteMark], computeEtag zeroDigest (ascii "hi")])
        plainResponse.messages =
      [.start 200 [(ascii "cache-control", defaultCacheControl),
        tagLine (computeEtag zeroDigest (ascii "hi"))], lastBody (ascii "hi")] := by
  decide +kernel

end ServiceToolkit.Etag
