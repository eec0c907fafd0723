import ServiceToolkit.Dict
import ServiceToolkit.Text

/-!
# The Redis Keys of a Lookup Cache

`LookupCache` keeps the value of a serialized key under one Redis key and the lock that
guards its load under another. Both are built by `Keyspace.key`, which trims every part,
drops the blank ones and joins what is left with the separator. Trimming and joining both
forget: a part that differs from another only in outer blanks or separators gives the same
key, and the text of a lock key is also the text of a data key, that of the serialized key
which already ends in separator and `lock`.

What the keys do keep is exact. `Keyspace.shown` is what is left of a serialized key in its
data key, and `Keyspace.lockText` what is left of one in its lock key.
-/

namespace ServiceToolkit.CacheKeys

open Text List

/-- `Keyspace`. -/
structure Keyspace where
  keyPrefix : List Char
  separator : List Char := [':']

/-- `str.strip(chars)`: the characters of `chars` go from both ends. -/
def stripChars (chars s : List Char) : List Char :=
  Words.trim (· ∈ chars) s

namespace Keyspace

/-- A part as `key` keeps it: blank parts are dropped, the others lose their outer blanks
first and their outer separators second. -/
def clean (ks : Keyspace) (part : List Char) : Option (List Char) :=
  let part := strip part
  if part = [] then none else some (stripChars ks.separator part)

/-- `Keyspace.key`. -/
def key (ks : Keyspace) (parts : List (List Char)) : List Char :=
  ks.separator.intercalate ((ks.keyPrefix :: parts).filterMap ks.clean)

end Keyspace

/-- `LookupCache._redis_key`, of a serialized key. -/
def redisKey (ks : Keyspace) (serialized : List Char) : List Char := ks.key [serialized]

/-- `LookupCache._redis_lock_key`, of a serialized key. -/
def redisLockKey (ks : Keyspace) (serialized : List Char) : List Char :=
  ks.key [serialized, ['l', 'o', 'c', 'k']]

/-! ### What a key shows -/

namespace Keyspace

/-- The last part of every lock key. It is shorter than `lock` only where the separator
shares letters with it. -/
def lockWord (ks : Keyspace) : List Char := stripChars ks.separator ['l', 'o', 'c', 'k']

/-- What a data key shows of its serialized key. A dropped part can be told from an empty
one by the separator before it, unless there is no prefix or no separator. -/
def shown (ks : Keyspace) (serialized : List Char) : Option (List Char) :=
  if ks.clean ks.keyPrefix = none ∨ ks.separator = [] then
    some ((ks.clean serialized).getD [])
  else
    ks.clean serialized

/-- What a lock key shows of its serialized key. -/
def lockText (ks : Keyspace) (serialized : List Char) : List Char :=
  match ks.clean serialized with
  | none => ks.lockWord
  | some c => c ++ ks.separator ++ ks.lockWord

/-- The keys of two serialized keys are **kept apart**: their data keys show different
things, and the data key of the first does not show what the lock key of the second does. -/
def KeptApart (ks : Keyspace) (s t : List Char) : Prop :=
  (s ≠ t → ks.shown s ≠ ks.shown t) ∧ ks.shown s ≠ some (ks.lockText t)

instance (ks : Keyspace) (s t : List Char) : Decidable (ks.KeptApart s t) :=
  inferInstanceAs (Decidable (_ ∧ _))

theorem clean_lock (ks : Keyspace) : ks.clean ['l', 'o', 'c', 'k'] = some ks.lockWord := by
  have hstrip : strip ['l', 'o', 'c', 'k'] = ['l', 'o', 'c', 'k'] := by decide
  simp [clean, hstrip, lockWord]

end Keyspace

variable {ks : Keyspace} {s t : List Char}

theorem redisKey_of_none (hp : ks.clean ks.keyPrefix = none) :
    redisKey ks s = (ks.clean s).getD [] := by
  cases hs : ks.clean s <;> simp [redisKey, Keyspace.key, hp, hs, intercalate]

theorem redisKey_of_some {p : List Char} (hp : ks.clean ks.keyPrefix = some p) :
    redisKey ks s = p ++ (ks.clean s).elim [] (ks.separator ++ ·) := by
  cases hs : ks.clean s <;> simp [redisKey, Keyspace.key, hp, hs, intercalate]

theorem redisLockKey_of_none (hp : ks.clean ks.keyPrefix = none) :
    redisLockKey ks t = ks.lockText t := by
  cases ht : ks.clean t <;>
    simp [redisLockKey, Keyspace.key, Keyspace.lockText, hp, ht, Keyspace.clean_lock, intercalate]

theorem redisLockKey_of_some {p : List Char} (hp : ks.clean ks.keyPrefix = some p) :
    redisLockKey ks t = p ++ (ks.separator ++ ks.lockText t) := by
  cases ht : ks.clean t <;>
    simp [redisLockKey, Keyspace.key, Keyspace.lockText, hp, ht, Keyspace.clean_lock, intercalate]

theorem elim_append_inj {sep : List Char} (hsep : sep ≠ []) {a b : Option (List Char)} :
    a.elim [] (sep ++ ·) = b.elim [] (sep ++ ·) ↔ a = b := by
  cases a <;> cases b <;> simp [hsep]

/-- Two data keys are equal exactly when what they show is. -/
theorem redisKey_eq_iff : redisKey ks s = redisKey ks t ↔ ks.shown s = ks.shown t := by
  unfold Keyspace.shown
  cases hp : ks.clean ks.keyPrefix with
  | none => simp [redisKey_of_none hp]
  | some p =>
    rw [redisKey_of_some hp, redisKey_of_some hp, append_cancel_left_eq]
    by_cases hsep : ks.separator = []
    · cases ks.clean s <;> cases ks.clean t <;> simp [hsep]
    · rw [if_neg (by simp [hsep]), if_neg (by simp [hsep]), elim_append_inj hsep]

theorem redisKey_eq_redisLockKey_iff :
    redisKey ks s = redisLockKey ks t ↔ ks.shown s = some (ks.lockText t) := by
  unfold Keyspace.shown
  cases hp : ks.clean ks.keyPrefix with
  | none => simp [redisKey_of_none hp, redisLockKey_of_none hp]
  | some p =>
    rw [redisKey_of_some hp, redisLockKey_of_some hp, append_cancel_left_eq]
    by_cases hsep : ks.separator = []
    · cases ks.clean s <;> simp [hsep]
    · rw [if_neg (by simp [hsep]), ← elim_append_inj hsep, Option.elim_some]

/-- **When the keys are kept apart**: data keys of different serialized keys differ, and the first
is not the lock key of the second, exactly when trimming keeps the two different and does not leave,
of the first, what the lock key shows of the second. -/
theorem redis_keys_separated_iff (ks : Keyspace) (s t : List Char) :
    ((s ≠ t → redisKey ks s ≠ redisKey ks t) ∧ redisKey ks s ≠ redisLockKey ks t) ↔
      ks.KeptApart s t := by
  unfold Keyspace.KeptApart
  rw [ne_eq (redisKey ks s) (redisKey ks t), ne_eq (redisKey ks s) (redisLockKey ks t),
    redisKey_eq_iff, redisKey_eq_redisLockKey_iff]

/-- With a plain prefix: a leading blank or separator is lost, so two serialized keys share a data
key, and one that ends in `:lock` has the lock key of another as its data key. -/
theorem redis_keys_collide :
    redisKey ⟨['c'], [':']⟩ ['a'] = redisKey ⟨['c'], [':']⟩ [' ', 'a'] ∧
    redisKey ⟨['c'], [':']⟩ ['a'] = redisKey ⟨['c'], [':']⟩ [':', 'a'] ∧
    redisKey ⟨['c'], [':']⟩ ['a', ':', 'l', 'o', 'c', 'k'] =
      redisLockKey ⟨['c'], [':']⟩ ['a'] := by
  decide

/-! ### A cache in Redis -/

section

variable {B : Type*} [DecidableEq B]

/-- What caches over one keyspace do in Redis: a value is set, or deleted or expired; a
lock is acquired (`SET NX`) and released (compare and delete), or expires. -/
inductive Op (B : Type*)
  | set (serialized : List Char) (value : B)
  | drop (serialized : List Char)
  | acquire (serialized : List Char) (token : B)
  | release (serialized : List Char) (token : B)
  | expire (serialized : List Char)

/-- The serialized key an operation is about. -/
def Op.serialized : Op B → List Char
  | .set s _ | .drop s | .acquire s _ | .release s _ | .expire s => s

/-- An operation at the server. -/
def applyOp (ks : Keyspace) (redis : Dict (List Char) B) : Op B → Dict (List Char) B
  | .set s v => redis.set (redisKey ks s) v
  | .drop s => redis.erase (redisKey ks s)
  | .acquire s token =>
    if (redis.get? (redisLockKey ks s)).isNone then redis.set (redisLockKey ks s) token
    else redis
  | .release s token =>
    if redis.get? (redisLockKey ks s) = some token then redis.erase (redisLockKey ks s)
    else redis
  | .expire s => redis.erase (redisLockKey ks s)

/-- What a cache that never shares a key would hold for `s`. -/
def ownValue (s : List Char) (value : Option B) : Op B → Option B
  | .set s' v => if s' = s then some v else value
  | .drop s' => if s' = s then none else value
  | _ => value

/-- One operation changes the data key of `s` only when it is one on the value of `s`. -/
theorem get?_applyOp {redis : Dict (List Char) B} {op : Op B}
    (hdata : s ≠ op.serialized → redisKey ks s ≠ redisKey ks op.serialized)
    (hlock : redisKey ks s ≠ redisLockKey ks op.serialized) :
    (applyOp ks redis op).get? (redisKey ks s) =
      ownValue s (redis.get? (redisKey ks s)) op := by
  cases op with
  | set s' v | drop s' =>
    by_cases hs : s = s'
    · simp [applyOp, ownValue, hs]
    · have hne : redisKey ks s ≠ redisKey ks s' := hdata hs
      simp [applyOp, ownValue, hne, Ne.symm hs]
  | acquire s' token | release s' token =>
    have hne : redisKey ks s ≠ redisLockKey ks s' := hlock
    simp only [applyOp, ownValue]
    split <;> simp [hne]
  | expire s' =>
    have hne : redisKey ks s ≠ redisLockKey ks s' := hlock
    simp [applyOp, ownValue, hne]

/-- **No value of another key, and no lock, is read as data** while the serialized keys in
use are kept apart from the one that is read. -/
theorem get?_foldl_applyOp (ops : List (Op B)) (redis : Dict (List Char) B)
    (hapart : ∀ op ∈ ops, ks.KeptApart s op.serialized) :
    (ops.foldl (applyOp ks) redis).get? (redisKey ks s) =
      ops.foldl (ownValue s) (redis.get? (redisKey ks s)) := by
  induction ops generalizing redis with
  | nil => rfl
  | cons op ops ih =>
    obtain ⟨hdata, hlock⟩ := hapart op mem_cons_self
    rw [foldl_cons, foldl_cons, ih _ fun op' hop' => hapart op' (mem_cons_of_mem _ hop'),
      get?_applyOp (fun hne => mt redisKey_eq_iff.mp (hdata hne))
        (mt redisKey_eq_redisLockKey_iff.mp hlock)]

end

/-- A lock and another key do not touch the value of `a`. -/
theorem get?_foldl_applyOp_plain :
    ([.set ['a'] 1, .acquire ['a'] 2, .set ['b'] 3, .drop ['b']].foldl
        (applyOp ⟨['c'], [':']⟩) Dict.empty).get? (redisKey ⟨['c'], [':']⟩ ['a']) = some 1 :=
  get?_foldl_applyOp _ _ (by decide)

end ServiceToolkit.CacheKeys
