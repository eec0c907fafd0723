import ServiceToolkit.Dict
import ServiceToolkit.FixedWindow
import Mathlib.Algebra.Order.Ring.Cast
import Mathlib.Algebra.Order.Ring.Rat

/-!
# Request Rate Limits

`enforce_request_rate_limit` counts the requests of a key in fixed windows. Where Redis answers,
a script counts (`_enforce_redis_rate_limit`); where it does not, `_LocalWindowLimiter` does, in a
dictionary of the process. The two count differently:

* the script increments on every request, and Redis drops the counter when its time is over;
* the local limiter does not count a request it rejects. It drops ended windows when the
  next request comes, and when it has more than `max_entries` windows, it drops the one
  counted in longest ago.

Both refine the fixed-window counter of `FixedWindow`. The script's counter is the count
(`Mirrors`), and the local one the count capped at the limit (`Simulates`), as long as no live
window is dropped. **So they admit the same requests if the keys with a live window are never
more than `max_entries`** (`local_agrees_with_redis`).

Times are rational numbers. Redis runs a script atomically; so does the event loop run `enforce`,
which awaits nothing while it holds its lock.
-/

namespace ServiceToolkit.RateLimit

open FixedWindow Option

variable {K : Type*}

/-! ### The local limiter -/

/-- The response to a request that was rejected. -/
structure HTTPException where
  statusCode : ℕ
  detail : String
  deriving DecidableEq

/-- `HTTP_429_TOO_MANY_REQUESTS`. -/
def tooManyRequests (errorDetail : String) : HTTPException := ⟨429, errorDetail⟩

/-- What a limiter does: return, or raise. -/
abbrev Outcome := Except HTTPException Unit

/-- `max(1, int(window_seconds))`. -/
def timeToLive (windowSeconds : ℤ) : ℤ := max 1 windowSeconds

/-- `_LocalWindowLimiter`. -/
structure LocalWindowLimiter (K : Type*) where
  entries : Dict K (Window ℚ)
  maxEntries : ℕ

/-- `__init__`. -/
def LocalWindowLimiter.new (maxEntries : ℤ) : LocalWindowLimiter K :=
  ⟨.empty, (max 1 maxEntries).toNat⟩

/-- The loop over the stale keys. -/
def cleanup (now : ℚ) (entries : Dict K (Window ℚ)) : Dict K (Window ℚ) :=
  entries.filterValues fun w => !decide (w.expiresAt ≤ now)

/-- The loop that drops the oldest entries. -/
def evict (maxEntries : ℕ) (entries : Dict K (Window ℚ)) : Dict K (Window ℚ) :=
  entries.dropFirst (entries.size - maxEntries)

variable [DecidableEq K]

/-- `current_count` and `current_expires_at`. -/
def currentWindow (entries : Dict K (Window ℚ)) (now : ℚ) (key : K) (ttl : ℤ) : Window ℚ :=
  match entries.get? key with
  | none => ⟨0, now + ttl⟩
  | some w => if w.expiresAt ≤ now then ⟨0, now + ttl⟩ else w

/-- One more in the window, and its entry to the end. -/
def store (entries : Dict K (Window ℚ)) (key : K) (w : Window ℚ) : Dict K (Window ℚ) :=
  (entries.set key ⟨w.count + 1, w.expiresAt⟩).moveToEnd key

/-- `_LocalWindowLimiter.enforce`. -/
def LocalWindowLimiter.enforce (l : LocalWindowLimiter K) (now : ℚ) (key : K)
    (limit windowSeconds : ℤ) (errorDetail : String) : Outcome × LocalWindowLimiter K :=
  let entries := cleanup now l.entries
  let current := currentWindow entries now key (timeToLive windowSeconds)
  if limit ≤ current.count then
    (.error (tooManyRequests errorDetail), { l with entries })
  else
    (.ok (), { l with entries := evict l.maxEntries (store entries key current) })

/-- `enforce` without the two loops: a limiter that forgets nothing. -/
def enforceKeeping (entries : Dict K (Window ℚ)) (now : ℚ) (key : K)
    (limit windowSeconds : ℤ) (errorDetail : String) : Outcome × Dict K (Window ℚ) :=
  let current := currentWindow entries now key (timeToLive windowSeconds)
  if limit ≤ current.count then
    (.error (tooManyRequests errorDetail), entries)
  else
    (.ok (), store entries key current)

/-! ### The Redis script -/

/-- A counter in Redis, with its expiry if it has one. -/
structure RedisValue where
  value : ℕ
  expiresAt : Option ℚ
  deriving DecidableEq

/-- A key is gone at the instant it expires. -/
def RedisValue.present (now : ℚ) (v : RedisValue) : Bool := v.expiresAt.all fun e => now < e

/-- `INCR`. -/
def incr (db : Dict K RedisValue) (key : K) : ℕ × Dict K RedisValue :=
  match db.get? key with
  | none => (1, db.set key ⟨1, none⟩)
  | some v => (v.value + 1, db.set key { v with value := v.value + 1 })

/-- `EXPIRE`, for a positive number of seconds. -/
def expire (db : Dict K RedisValue) (now : ℚ) (key : K) (seconds : ℤ) : Dict K RedisValue :=
  match db.get? key with
  | none => db
  | some v => db.set key { v with expiresAt := some (now + seconds) }

/-- `_REDIS_FIXED_WINDOW_SCRIPT`, at a time when Redis has dropped what expired. -/
def fixedWindowScript (db : Dict K RedisValue) (now : ℚ) (key : K) (seconds : ℤ) :
    ℕ × Dict K RedisValue :=
  let incremented := incr (db.filterValues (RedisValue.present now)) key
  if incremented.1 = 1 then
    (incremented.1, expire incremented.2 now key seconds)
  else
    incremented

/-- `_enforce_redis_rate_limit`. -/
def enforceRedisRateLimit (db : Dict K RedisValue) (now : ℚ) (key : K)
    (limit windowSeconds : ℤ) (errorDetail : String) : Outcome × Dict K RedisValue :=
  let reply := fixedWindowScript db now key (timeToLive windowSeconds)
  (if limit < reply.1 then .error (tooManyRequests errorDetail) else .ok (), reply.2)

/-! ### Sequences of requests

Every key has one limit and one window. -/

section

variable (limit windowSeconds : K → ℤ) (errorDetail : String)

/-- A request comes to the local limiter. -/
def localStep (l : LocalWindowLimiter K) (r : Request K ℚ) : Outcome × LocalWindowLimiter K :=
  l.enforce r.time r.key (limit r.key) (windowSeconds r.key) errorDetail

/-- A request comes to the limiter that forgets nothing. -/
def keepingStep (entries : Dict K (Window ℚ)) (r : Request K ℚ) :
    Outcome × Dict K (Window ℚ) :=
  enforceKeeping entries r.time r.key (limit r.key) (windowSeconds r.key) errorDetail

/-- A request comes to Redis. -/
def redisStep (db : Dict K RedisValue) (r : Request K ℚ) : Outcome × Dict K RedisValue :=
  enforceRedisRateLimit db r.time r.key (limit r.key) (windowSeconds r.key) errorDetail

/-- The length of a key's windows. -/
def ttl (k : K) : ℚ := timeToLive (windowSeconds k)

/-- **The specification**: a request is rejected if its count exceeds the limit. -/
def verdict (h : Hit K ℚ) : Outcome :=
  if limit h.key < h.count then .error (tooManyRequests errorDetail) else .ok ()

/-- The requests admitted in the window of `k` that ends at `e`. -/
def admittedIn (hs : List (Hit K ℚ)) (outcomes : List Outcome) (k : K) (e : ℚ) : ℕ :=
  (hs.zip outcomes).countP fun x => x.2.isOk && x.1.isIn k e

end

variable {limit windowSeconds : K → ℤ} {errorDetail : String}

omit [DecidableEq K] in
theorem lt_add_ttl (windowSeconds : K → ℤ) (k : K) (now : ℚ) : now < now + ttl windowSeconds k := by
  have hpos : 0 < timeToLive (windowSeconds k) := lt_max_of_lt_left Int.zero_lt_one
  exact lt_add_of_pos_right now (Int.cast_pos.mpr hpos)

/-! ### The local limiter counts up to the limit -/

section

variable {entries : Dict K (Window ℚ)} {ws : K → Option (Window ℚ)} {now : ℚ} {r : Request K ℚ}

/-- A window as the local limiter has it. -/
def cap (limit : ℤ) (w : Window ℚ) : Window ℚ := ⟨min w.count limit.toNat, w.expiresAt⟩

/-- What the local limiter writes down. -/
def capped (limit : K → ℤ) : Encoding K (Window ℚ) ℚ where
  present := Window.live
  encode k := cap (limit k)
  present_encode _ _ _ := rfl
  present_of_le hle hlive := live_iff.mpr (hle.trans_lt (live_iff.mp hlive))

/-- **The simulation**: of the windows that are live, the limiter has the count up to the limit. -/
def Simulates (limit : K → ℤ) (entries : Dict K (Window ℚ)) (ws : K → Option (Window ℚ))
    (now : ℚ) : Prop :=
  (capped limit).Represents entries.get? ws now

theorem get?_cleanup (now : ℚ) (entries : Dict K (Window ℚ)) (k : K) :
    (cleanup now entries).get? k = (entries.get? k).filter (Window.live now) := by
  have hlive : (fun w : Window ℚ => !decide (w.expiresAt ≤ now)) = Window.live now := by
    funext w
    rw [Window.live, ← decide_not, decide_eq_decide, not_le]
  rw [cleanup, hlive, Dict.get?_filterValues]

theorem Simulates.cleanup (h : Simulates limit entries ws now) :
    Simulates limit (cleanup now entries) ws now :=
  Encoding.Represents.purge h (get?_cleanup now entries)

theorem currentWindow_eq (entries : Dict K (Window ℚ)) (now : ℚ) (key : K) (seconds : ℤ) :
    currentWindow entries now key seconds = current (seconds : ℚ) now (entries.get? key) := by
  rw [currentWindow, current]
  split
  · next hnone => rw [hnone, filter_none, getD_none]
  · rename_i w hw
    rw [hw, filter_some]
    by_cases hlive : w.expiresAt ≤ now
    · have hdead : ¬ w.live now = true := by rwa [live_iff, not_lt]
      rw [if_pos hlive, if_neg hdead, getD_none]
    · rw [if_neg hlive, if_pos (live_iff.mpr (not_le.mp hlive)), getD_some]

/-- **Cleaning up changes no decision**: a stale entry counts as none. -/
theorem currentWindow_cleanup (entries : Dict K (Window ℚ)) (now : ℚ) (key : K) (seconds : ℤ) :
    currentWindow (cleanup now entries) now key seconds =
      currentWindow entries now key seconds := by
  rw [currentWindow_eq, currentWindow_eq, get?_cleanup, current, filter_filter_live le_rfl, current]

theorem Simulates.current (h : Simulates limit entries ws now) (key : K) (ttl : ℚ) :
    current ttl now (entries.get? key) = cap (limit key) (current ttl now (ws key)) := by
  have hnew : cap (limit key) ⟨0, now + ttl⟩ = ⟨0, now + ttl⟩ := by
    rw [cap, Nat.zero_min]
  have hlive : (entries.get? key).filter (Window.live now) =
      ((ws key).filter (Window.live now)).map (cap (limit key)) := h key
  rw [FixedWindow.current, FixedWindow.current, hlive, ← getD_map (cap (limit key)), hnew]

theorem le_cap_count_iff {L : ℤ} (hL : 1 ≤ L) (w : Window ℚ) :
    L ≤ (cap L w).count ↔ L < (w.count + 1 : ℕ) := by
  simp only [cap]
  omega

theorem cap_succ_of_le {L : ℤ} {w : Window ℚ} (hle : L ≤ (cap L w).count) :
    cap L ⟨w.count + 1, w.expiresAt⟩ = cap L w := by
  simp only [cap, Window.mk.injEq, and_true] at hle ⊢
  omega

theorem cap_succ_of_lt {L : ℤ} {w : Window ℚ} (hlt : ¬ L ≤ (cap L w).count) :
    cap L ⟨w.count + 1, w.expiresAt⟩ = ⟨(cap L w).count + 1, w.expiresAt⟩ := by
  simp only [cap, Window.mk.injEq, and_true] at hlt ⊢
  omega

/-- The entries after a request that found the window `w`. A request that is rejected leaves
them. -/
def counted (limit : ℤ) (entries : Dict K (Window ℚ)) (key : K) (w : Window ℚ) :
    Dict K (Window ℚ) :=
  if limit ≤ w.count then entries else store entries key w

theorem get?_store (entries : Dict K (Window ℚ)) (key : K) (w : Window ℚ) (k : K) :
    (store entries key w).get? k =
      if k = key then some ⟨w.count + 1, w.expiresAt⟩ else entries.get? k := by
  rw [store, Dict.get?_moveToEnd, Dict.get?_set]

theorem Simulates.get?_counted (h : Simulates limit entries ws r.time)
    (hlimit : 1 ≤ limit r.key) (windowSeconds : K → ℤ) (k : K) :
    (counted (limit r.key) entries r.key
        (FixedWindow.current (ttl windowSeconds r.key) r.time (entries.get? r.key))).get? k =
      if k = r.key then some (cap (limit r.key) (hit (ttl windowSeconds) ws r).toWindow)
      else entries.get? k := by
  have hcurrent := h.current r.key (ttl windowSeconds r.key)
  rw [counted]
  split
  · rename_i hle
    by_cases hk : k = r.key
    · have hpresent : entries.get? r.key =
          some (FixedWindow.current (ttl windowSeconds r.key) r.time (entries.get? r.key)) := by
        rcases current_cases (lt_add_ttl windowSeconds r.key r.time) (entries.get? r.key) with
          ⟨hsome, -⟩ | ⟨hnew, -⟩
        · exact hsome
        · rw [hnew] at hle
          exact absurd (hlimit.trans hle) (by simp)
      rw [hcurrent] at hle hpresent
      rw [if_pos hk, hk, hpresent]
      exact congrArg some (cap_succ_of_le hle).symm
    · rw [if_neg hk]
  · rename_i hlt
    rw [hcurrent] at hlt ⊢
    rw [get?_store]
    exact if_congr Iff.rfl (congrArg some (cap_succ_of_lt hlt).symm) rfl

theorem Simulates.verdict_eq (h : Simulates limit entries ws r.time) (hlimit : 1 ≤ limit r.key) :
    verdict limit errorDetail (hit (ttl windowSeconds) ws r) =
      if limit r.key ≤
          (FixedWindow.current (ttl windowSeconds r.key) r.time (entries.get? r.key)).count
      then .error (tooManyRequests errorDetail) else .ok () := by
  rw [h.current, verdict]
  exact if_congr (le_cap_count_iff hlimit _).symm rfl rfl

theorem Simulates.size_le (h : Simulates limit entries ws now)
    (hlive : ∀ {k w}, entries.get? k = some w → now < w.expiresAt) {n : ℕ}
    (hcrowd : (liveKeys ws now).encard ≤ n) : entries.size ≤ n := by
  have hsubset : (entries.keys.toFinset : Set K) ⊆ liveKeys ws now := by
    intro k hk
    rw [Finset.mem_coe, List.mem_toFinset, Dict.mem_keys_iff] at hk
    obtain ⟨w, hw⟩ := isSome_iff_exists.mp hk
    exact Encoding.Represents.mem_liveKeys h hw (live_iff.mpr (hlive hw))
  have hcard := (Set.encard_le_encard hsubset).trans hcrowd
  rw [Set.encard_coe_eq_coe_finsetCard] at hcard
  calc entries.size = entries.keys.length := (List.length_map _).symm
    _ = entries.keys.toFinset.card := (List.toFinset_card_of_nodup entries.nodup).symm
    _ ≤ n := Nat.cast_le.mp hcard

omit [DecidableEq K] in
theorem evict_of_size_le {maxEntries : ℕ} (hsize : entries.size ≤ maxEntries) :
    evict maxEntries entries = entries := by
  rw [evict, Nat.sub_eq_zero_of_le hsize]
  rfl

theorem localStep_eq {l : LocalWindowLimiter K} {w : Window ℚ}
    (hw : w = FixedWindow.current (ttl windowSeconds r.key) r.time
      ((cleanup r.time l.entries).get? r.key))
    (hsize : (counted (limit r.key) (cleanup r.time l.entries) r.key w).size ≤ l.maxEntries) :
    localStep limit windowSeconds errorDetail l r =
      (if limit r.key ≤ w.count then .error (tooManyRequests errorDetail) else .ok (),
        { l with entries := counted (limit r.key) (cleanup r.time l.entries) r.key w }) := by
  rw [ttl, ← currentWindow_eq] at hw
  rw [localStep, LocalWindowLimiter.enforce, ← hw]
  rw [counted] at hsize ⊢
  by_cases hle : limit r.key ≤ w.count
  · simp only [if_pos hle]
  · rw [if_neg hle] at hsize
    simp only [if_neg hle, evict_of_size_le hsize]

/-- **The local limiter takes a step of the counter**, if it need not drop a live window. -/
theorem localStep_spec {l : LocalWindowLimiter K} (h : Simulates limit l.entries ws r.time)
    (hlimit : 1 ≤ limit r.key)
    (hcrowd : (liveKeys (Function.update ws r.key (some (hit (ttl windowSeconds) ws r).toWindow))
      r.time).encard ≤ l.maxEntries) (errorDetail : String) :
    (localStep limit windowSeconds errorDetail l r).1 =
        verdict limit errorDetail (hit (ttl windowSeconds) ws r) ∧
      (localStep limit windowSeconds errorDetail l r).2.maxEntries = l.maxEntries ∧
      Simulates limit (localStep limit windowSeconds errorDetail l r).2.entries
        (Function.update ws r.key (some (hit (ttl windowSeconds) ws r).toWindow)) r.time := by
  have hget := h.cleanup.get?_counted hlimit windowSeconds
  have hsimulates : Simulates limit _ _ r.time := Encoding.Represents.step h.cleanup hget
  have hsize := hsimulates.size_le ?live hcrowd
  case live =>
    intro k w hw
    rw [hget k] at hw
    split at hw
    · cases hw
      exact lt_current (lt_add_ttl windowSeconds r.key r.time) _
    · rw [get?_cleanup] at hw
      exact live_iff.mp (filter_eq_some_iff.mp hw).2
  rw [localStep_eq rfl hsize]
  exact ⟨(h.cleanup.verdict_eq hlimit).symm, rfl, hsimulates⟩

theorem keepingStep_spec (h : Simulates limit entries ws r.time) (hlimit : 1 ≤ limit r.key) :
    (keepingStep limit windowSeconds errorDetail entries r).1 =
        verdict limit errorDetail (hit (ttl windowSeconds) ws r) ∧
      Simulates limit (keepingStep limit windowSeconds errorDetail entries r).2
        (Function.update ws r.key (some (hit (ttl windowSeconds) ws r).toWindow)) r.time := by
  have hsimulates : Simulates limit _ _ r.time :=
    Encoding.Represents.step h (h.get?_counted hlimit windowSeconds)
  have hstep : keepingStep limit windowSeconds errorDetail entries r =
      (verdict limit errorDetail (hit (ttl windowSeconds) ws r), counted (limit r.key) entries r.key
          (FixedWindow.current (ttl windowSeconds r.key) r.time (entries.get? r.key))) := by
    rw [h.verdict_eq hlimit, keepingStep, enforceKeeping, currentWindow_eq, counted, ttl]
    split <;> rfl
  rw [hstep]
  exact ⟨rfl, hsimulates⟩

end

/-! ### The script's counter is the count -/

section

variable {db : Dict K RedisValue} {ws : K → Option (Window ℚ)} {r : Request K ℚ}

/-- A window as Redis has it. -/
def toRedis (w : Window ℚ) : RedisValue := ⟨w.count, some w.expiresAt⟩

/-- What Redis writes down. -/
def plain : Encoding K RedisValue ℚ where
  present := RedisValue.present
  encode _ := toRedis
  present_encode _ _ _ := rfl
  present_of_le := by
    intro now now' v hle hv
    rw [RedisValue.present, Option.all_eq_true] at hv ⊢
    intro e he
    exact decide_eq_true (hle.trans_lt (of_decide_eq_true (hv e he)))

/-- **The mirror**: of the windows that are live, Redis has the count and the expiry. -/
def Mirrors (db : Dict K RedisValue) (ws : K → Option (Window ℚ)) (now : ℚ) : Prop :=
  plain.Represents db.get? ws now

theorem Mirrors.script (h : Mirrors db ws r.time) (hpos : ∀ {w}, ws r.key = some w → 0 < w.count)
    (windowSeconds : K → ℤ) :
    (fixedWindowScript db r.time r.key (timeToLive (windowSeconds r.key))).1 =
        (hit (ttl windowSeconds) ws r).count ∧
      ∀ k, (fixedWindowScript db r.time r.key (timeToLive (windowSeconds r.key))).2.get? k =
        if k = r.key then some (toRedis (hit (ttl windowSeconds) ws r).toWindow)
        else (db.get? k).filter (RedisValue.present r.time) := by
  have hkey : (db.filterValues (RedisValue.present r.time)).get? r.key =
      ((ws r.key).filter (Window.live r.time)).map toRedis := by
    rw [Dict.get?_filterValues]
    exact h r.key
  cases hlive : (ws r.key).filter (Window.live r.time) with
  | none =>
    have hcurrent : current (ttl windowSeconds r.key) r.time (ws r.key) =
        ⟨0, r.time + ttl windowSeconds r.key⟩ := by
      rw [current, hlive, getD_none]
    rw [hlive, map_none] at hkey
    simp only [fixedWindowScript, incr, hkey, if_pos, expire, Dict.get?_set, hit, hcurrent]
    refine ⟨trivial, fun k => ?_⟩
    by_cases hk : k = r.key
    · simp only [if_pos hk]
      rfl
    · simp only [if_neg hk, Dict.get?_filterValues]
  | some w =>
    have hcurrent : current (ttl windowSeconds r.key) r.time (ws r.key) = w := by
      rw [current, hlive, getD_some]
    have hcount : ¬ w.count + 1 = 1 := by
      have := hpos (filter_eq_some_iff.mp hlive).1
      omega
    rw [hlive, map_some] at hkey
    simp only [fixedWindowScript, incr, hkey, toRedis, if_neg hcount, Dict.get?_set, hit,
      hcurrent, Dict.get?_filterValues]
    exact ⟨trivial, fun _ => trivial⟩

theorem redisStep_spec (h : Mirrors db ws r.time) (hpos : ∀ {w}, ws r.key = some w → 0 < w.count) :
    (redisStep limit windowSeconds errorDetail db r).1 =
        verdict limit errorDetail (hit (ttl windowSeconds) ws r) ∧
      Mirrors (redisStep limit windowSeconds errorDetail db r).2
        (Function.update ws r.key (some (hit (ttl windowSeconds) ws r).toWindow)) r.time := by
  obtain ⟨hcount, hget⟩ := h.script hpos windowSeconds
  refine ⟨?_, Encoding.Represents.step (h.purge fun _ => rfl) hget⟩
  rw [redisStep, enforceRedisRateLimit, hcount]
  rfl

end

/-! ### Whole sequences -/

section

variable {rs : List (Request K ℚ)}

theorem answers_redis (htimes : rs.Pairwise fun r r' => r.time ≤ r'.time) :
    answers (redisStep limit windowSeconds errorDetail) .empty rs =
      (hits (ttl windowSeconds) rs).map (verdict limit errorDetail) := by
  refine answers_eq_map_hits htimes (R := Mirrors) (fun _ _ => rfl) (fun hle h => h.mono hle) ?_
  intro done r db _ h
  rw [windows_concat]
  exact redisStep_spec h count_pos

theorem answers_keeping (hlimit : ∀ k, 1 ≤ limit k)
    (htimes : rs.Pairwise fun r r' => r.time ≤ r'.time) :
    answers (keepingStep limit windowSeconds errorDetail) .empty rs =
      (hits (ttl windowSeconds) rs).map (verdict limit errorDetail) := by
  refine answers_eq_map_hits htimes (R := Simulates limit) (fun _ _ => rfl)
    (fun hle h => h.mono hle) ?_
  intro done r entries _ h
  rw [windows_concat]
  exact keepingStep_spec h (hlimit r.key)

/-- A local limiter of a given size that simulates the counter. -/
structure Tracks (limit : K → ℤ) (maxEntries : ℕ) (l : LocalWindowLimiter K)
    (ws : K → Option (Window ℚ)) (now : ℚ) : Prop where
  bound : l.maxEntries = maxEntries
  simulates : Simulates limit l.entries ws now

theorem answers_local {maxEntries : ℤ} (hlimit : ∀ k, 1 ≤ limit k)
    (htimes : rs.Pairwise fun r r' => r.time ≤ r'.time) (hcrowd : ∀ done r, done ++ [r] <+: rs →
      (liveKeys (windows (ttl windowSeconds) (done ++ [r])) r.time).encard ≤
        (max 1 maxEntries).toNat) :
    answers (localStep limit windowSeconds errorDetail) (.new maxEntries) rs =
      (hits (ttl windowSeconds) rs).map (verdict limit errorDetail) := by
  refine answers_eq_map_hits htimes (R := Tracks limit (max 1 maxEntries).toNat)
    (fun _ => ⟨rfl, fun _ => rfl⟩) (fun hle h => ⟨h.bound, h.simulates.mono hle⟩) ?_
  intro done r l hdone h
  have huncrowded := hcrowd done r hdone
  rw [windows_concat, ← h.bound] at huncrowded
  obtain ⟨hanswer, hbound, hsimulates⟩ :=
    localStep_spec h.simulates (hlimit r.key) huncrowded errorDetail
  rw [windows_concat]
  exact ⟨hanswer, hbound.trans h.bound, hsimulates⟩

theorem admittedIn_le (hlimit : ∀ k, 1 ≤ limit k) (rs : List (Request K ℚ)) (k : K) (e : ℚ) :
    (admittedIn (hits (ttl windowSeconds) rs)
      ((hits (ttl windowSeconds) rs).map (verdict limit errorDetail)) k e : ℤ) ≤ limit k := by
  have hbound := countP_le (lt_add_ttl windowSeconds) rs k e (limit k).toNat
  have hzip : (hits (ttl windowSeconds) rs).zip
      ((hits (ttl windowSeconds) rs).map (verdict limit errorDetail)) =
        (hits (ttl windowSeconds) rs).map fun h => (h, verdict limit errorDetail h) := by
    have := List.zip_map' (f := id) (g := verdict limit errorDetail)
      (l := hits (ttl windowSeconds) rs)
    rwa [List.map_id] at this
  have hadmitted : ∀ h : Hit K ℚ, ((verdict limit errorDetail h).isOk && h.isIn k e) = true →
        (decide (h.count ≤ (limit k).toNat) && h.isIn k e) = true := by
    intro h hh
    rw [Bool.and_eq_true] at hh ⊢
    refine ⟨?_, hh.2⟩
    obtain ⟨rfl, -⟩ : h.key = k ∧ h.expiresAt = e := of_decide_eq_true hh.2
    have hok := hh.1
    rw [verdict] at hok
    split at hok
    · cases hok
    · exact decide_eq_true (by omega)
  have hcount := List.countP_mono_left (l := hits (ttl windowSeconds) rs) fun h _ => hadmitted h
  rw [admittedIn, hzip, List.countP_map]
  have hle := hcount.trans hbound
  have hpos := hlimit k
  simp only [Function.comp_def]
  omega

/-- **The two limiters agree**: for requests in the order of time, positive limits and never more
than `max_entries` keys with a live window, the local limiter raises at the same requests as Redis.
A window of a key admits at most the limit on both sides. The decision at a request is that without
the cleanup, and all are those of a limiter that keeps every entry. -/
theorem local_agrees_with_redis (limit windowSeconds : K → ℤ) (errorDetail : String)
    (maxEntries : ℤ) (rs : List (Request K ℚ)) (hlimit : ∀ k, 1 ≤ limit k)
    (htimes : rs.Pairwise fun r r' => r.time ≤ r'.time)
    (hcrowd : ∀ done r, done ++ [r] <+: rs →
      (liveKeys (windows (ttl windowSeconds) (done ++ [r])) r.time).encard ≤
        (max 1 maxEntries).toNat) :
    answers (localStep limit windowSeconds errorDetail) (.new maxEntries) rs =
        answers (redisStep limit windowSeconds errorDetail) .empty rs ∧
      (∀ k e, (admittedIn (hits (ttl windowSeconds) rs)
        (answers (localStep limit windowSeconds errorDetail) (.new maxEntries) rs) k e : ℤ) ≤
          limit k) ∧
      (∀ k e, (admittedIn (hits (ttl windowSeconds) rs)
        (answers (redisStep limit windowSeconds errorDetail) .empty rs) k e : ℤ) ≤ limit k) ∧
      (∀ entries now (key : K) seconds, currentWindow (cleanup now entries) now key seconds =
        currentWindow entries now key seconds) ∧
      answers (localStep limit windowSeconds errorDetail) (.new maxEntries) rs =
        answers (keepingStep limit windowSeconds errorDetail) .empty rs := by
  rw [answers_local hlimit htimes hcrowd, answers_redis htimes, answers_keeping hlimit htimes]
  exact ⟨rfl, admittedIn_le hlimit rs, admittedIn_le hlimit rs, currentWindow_cleanup, rfl⟩

end

/-- Two keys, two entries. The third request is rejected; the last one comes at the instant the
first window ends. -/
theorem local_agrees_with_redis_two_keys :
    answers (localStep (fun _ : Bool => 2) (fun _ => 10) "slow down") (.new 2)
        [⟨true, 0⟩, ⟨true, 1⟩, ⟨true, 2⟩, ⟨false, 2⟩, ⟨true, 10⟩] =
      answers (redisStep (fun _ => 2) (fun _ => 10) "slow down") .empty
        [⟨true, 0⟩, ⟨true, 1⟩, ⟨true, 2⟩, ⟨false, 2⟩, ⟨true, 10⟩] := by
  refine (local_agrees_with_redis _ _ _ 2 _ (by decide) ?_ ?_).1
  · decide +kernel
  · intro done r _
    refine (Set.encard_le_encard (Set.subset_univ _)).trans ?_
    rw [Bool.univ_eq]
    exact (Set.encard_pair (by decide)).le

end ServiceToolkit.RateLimit
