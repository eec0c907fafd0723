import ServiceToolkit.Runs
import Mathlib.Data.Set.Card

/-!
# Fixed Windows

A **fixed-window counter** counts the requests of each key. The first request of a key opens a
window of a given length; later requests are counted in it until it ends, and it is gone at the
instant it ends. The next request opens a new one.

The count a request receives is its number in its window (`counts_eq_range`), so where the
requests with a count of at most `limit` are admitted, a window admits at most `limit`
(`countP_le`). The windows of a key follow one another, so the time at which it ends names a window.

A machine whose answers follow from the counts is compared with the counter by
`answers_eq_map_hits`. A machine that keeps windows in a store of its own does so by an `Encoding`:
`Encoding.Represents` relates the store to the windows, and survives the passing of time, the
dropping of what has ended, and a request.

Times are taken from any linear order with an addition.
-/

namespace ServiceToolkit.FixedWindow

open List Option

/-- A window: the requests counted in it, and when it ends. -/
@[ext]
structure Window (T : Type*) where
  count : ℕ
  expiresAt : T
  deriving DecidableEq

/-- A request under a key, at a time. -/
structure Request (K T : Type*) where
  key : K
  time : T
  deriving DecidableEq

/-- A request once it is counted: its key, and its window with the count it received. -/
structure Hit (K T : Type*) extends Window T where
  key : K
  deriving DecidableEq

variable {K T : Type*} [LinearOrder T]

/-! ### Live windows -/

/-- The window has not ended. -/
def Window.live (now : T) (w : Window T) : Bool := now < w.expiresAt

@[simp] theorem live_iff {now : T} {w : Window T} : w.live now = true ↔ now < w.expiresAt :=
  decide_eq_true_iff

theorem filter_filter_of_imp {α : Type*} {p q : α → Bool} (himp : ∀ a, q a = true → p a = true)
    (o : Option α) : (o.filter p).filter q = o.filter q := by
  ext a
  simp only [filter_eq_some_iff, and_assoc]
  exact and_congr_right fun _ => and_iff_right_of_imp (himp a)

theorem filter_filter_live {now now' : T} (hle : now ≤ now') (o : Option (Window T)) :
    (o.filter (Window.live now)).filter (Window.live now') = o.filter (Window.live now') :=
  filter_filter_of_imp (fun _ hlive => live_iff.mpr (hle.trans_lt (live_iff.mp hlive))) o

/-- The keys whose window is live. -/
def liveKeys (ws : K → Option (Window T)) (now : T) : Set K :=
  {k | ((ws k).filter (Window.live now)).isSome}

/-! ### Counting -/

variable [Add T]

/-- The window a request falls into, before it is counted: the live one, or a new one. -/
def current (ttl now : T) (o : Option (Window T)) : Window T :=
  (o.filter (Window.live now)).getD ⟨0, now + ttl⟩

/-- A request with the count it receives. -/
def hit (ttl : K → T) (ws : K → Option (Window T)) (r : Request K T) : Hit K T :=
  let w := current (ttl r.key) r.time (ws r.key)
  { count := w.count + 1, expiresAt := w.expiresAt, key := r.key }

variable [DecidableEq K]

/-- A request is counted. -/
def step (ttl : K → T) (ws : K → Option (Window T)) (r : Request K T) :
    Hit K T × (K → Option (Window T)) :=
  (hit ttl ws r, Function.update ws r.key (some (hit ttl ws r).toWindow))

/-- The windows that a sequence of requests leaves. -/
def windows (ttl : K → T) (rs : List (Request K T)) : K → Option (Window T) :=
  after (step ttl) (fun _ => none) rs

/-- The requests of a sequence, counted. -/
def hits (ttl : K → T) (rs : List (Request K T)) : List (Hit K T) :=
  answers (step ttl) (fun _ => none) rs

theorem windows_concat (ttl : K → T) (rs : List (Request K T)) (r : Request K T) :
    windows ttl (rs ++ [r]) =
      Function.update (windows ttl rs) r.key (some (hit ttl (windows ttl rs) r).toWindow) :=
  after_concat ..

theorem hits_concat (ttl : K → T) (rs : List (Request K T)) (r : Request K T) :
    hits ttl (rs ++ [r]) = hits ttl rs ++ [hit ttl (windows ttl rs) r] :=
  answers_concat ..

/-- The window of a request is the one the key has, or it is new and later than that. -/
theorem current_cases {ttl now : T} (httl : now < now + ttl) (o : Option (Window T)) :
    o = some (current ttl now o) ∧ now < (current ttl now o).expiresAt ∨
      current ttl now o = ⟨0, now + ttl⟩ ∧ ∀ w, o = some w → w.expiresAt < now + ttl := by
  rw [current]
  cases hfilter : o.filter (Window.live now) with
  | some w =>
    obtain ⟨ho, hlive⟩ := filter_eq_some_iff.mp hfilter
    exact .inl ⟨ho, live_iff.mp hlive⟩
  | none =>
    refine .inr ⟨rfl, ?_⟩
    intro w ho
    have hdead : ¬ w.live now = true := filter_eq_none_iff.mp hfilter w ho
    rw [live_iff, not_lt] at hdead
    exact hdead.trans_lt httl

theorem lt_current {ttl now : T} (httl : now < now + ttl) (o : Option (Window T)) :
    now < (current ttl now o).expiresAt := by
  rcases current_cases httl o with ⟨-, hlive⟩ | ⟨hnew, -⟩
  · exact hlive
  · rwa [hnew]

theorem count_pos {ttl : K → T} {rs : List (Request K T)} :
    ∀ {k w}, windows ttl rs k = some w → 0 < w.count := by
  refine calls_induction
    (P := fun done => ∀ {k w}, windows ttl done k = some w → 0 < w.count) nofun ?_
    rs (prefix_refl rs)
  intro done r _ ih k w hw
  rw [windows_concat] at hw
  by_cases hk : k = r.key
  · subst hk
    rw [Function.update_self] at hw
    cases hw
    exact Nat.succ_pos _
  · rw [Function.update_of_ne hk] at hw
    exact ih hw

/-! ### Machines that count -/

/-- **The refinement rule**: a machine that stays related to the windows, and whose answer to each
request follows from the count it receives, answers a sequence of requests as its counts say. -/
theorem answers_eq_map_hits {S O : Type*} {answer : S → Request K T → O × S}
    {R : S → (K → Option (Window T)) → T → Prop} {f : Hit K T → O} {ttl : K → T} {s : S}
    {rs : List (Request K T)} (htimes : rs.Pairwise fun r r' => r.time ≤ r'.time)
    (hinit : ∀ now, R s (fun _ => none) now)
    (hmono : ∀ {s ws now now'}, now ≤ now' → R s ws now → R s ws now')
    (hstep : ∀ {done r s}, done ++ [r] <+: rs → R s (windows ttl done) r.time →
      (answer s r).1 = f (hit ttl (windows ttl done) r) ∧
        R (answer s r).2 (windows ttl (done ++ [r])) r.time) :
    answers answer s rs = (hits ttl rs).map f := by
  have hlast : ∀ {done r}, done ++ [r] <+: rs → ∀ r' ∈ done, r'.time ≤ r.time := by
    intro done r hdone r' hr'
    have hpairwise := htimes.sublist hdone.sublist
    exact (pairwise_append.mp hpairwise).2.2 r' hr' r (mem_singleton_self r)
  have hrelated : ∀ done, done <+: rs → ∀ now, (∀ r ∈ done, r.time ≤ now) →
      R (after answer s done) (windows ttl done) now := by
    refine calls_induction (fun now _ => hinit now) ?_
    intro done r hdone ih now hnow
    rw [after_concat]
    have hr : r.time ≤ now := hnow r (by simp)
    exact hmono hr (hstep hdone (ih r.time (hlast hdone))).2
  refine answers_eq_map ?_
  intro done r hdone
  have hbefore := hrelated done ((prefix_append done [r]).trans hdone) r.time (hlast hdone)
  exact (hstep hdone hbefore).1

/-! ### Stores of windows -/

/-- **How a store writes windows down**: the value of a key's window, and whether a value still
counts. A value counts as long as its window is live, and does not count again. -/
structure Encoding (K V T : Type*) [LinearOrder T] where
  present : T → V → Bool
  encode : K → Window T → V
  present_encode : ∀ now k w, present now (encode k w) = w.live now
  present_of_le : ∀ {now now' v}, now ≤ now' → present now' v = true → present now v = true

/-- The store has the live windows, and else nothing that counts. -/
def Encoding.Represents {V : Type*} (enc : Encoding K V T) (get : K → Option V)
    (ws : K → Option (Window T)) (now : T) : Prop :=
  ∀ k, (get k).filter (enc.present now) = ((ws k).filter (Window.live now)).map (enc.encode k)

namespace Encoding

variable {V : Type*} {enc : Encoding K V T} {get get' : K → Option V}
  {ws : K → Option (Window T)} {now now' : T}

omit [Add T] [DecidableEq K]

theorem filter_filter_present (enc : Encoding K V T) (hle : now ≤ now') (o : Option V) :
    (o.filter (enc.present now)).filter (enc.present now') = o.filter (enc.present now') :=
  filter_filter_of_imp (fun _ => enc.present_of_le hle) o

theorem filter_map_encode (enc : Encoding K V T) (k : K) (o : Option (Window T)) :
    (o.map (enc.encode k)).filter (enc.present now) =
      (o.filter (Window.live now)).map (enc.encode k) := by
  have hlive : enc.present now ∘ enc.encode k = Window.live now :=
    funext (enc.present_encode now k)
  rw [Option.filter_map, hlive]

theorem Represents.mono (h : enc.Represents get ws now) (hle : now ≤ now') :
    enc.Represents get ws now' := by
  intro k
  rw [← enc.filter_filter_present hle, h k, filter_map_encode, filter_filter_live hle]

theorem Represents.mem_liveKeys (h : enc.Represents get ws now) {k : K} {v : V}
    (hv : get k = some v) (hpresent : enc.present now v = true) : k ∈ liveKeys ws now := by
  have hfilter := h k
  rw [hv, filter_some, if_pos hpresent] at hfilter
  obtain ⟨w, hw, -⟩ := map_eq_some_iff.mp hfilter.symm
  exact isSome_of_eq_some hw

theorem Represents.purge (h : enc.Represents get ws now)
    (hget : ∀ k, get' k = (get k).filter (enc.present now)) : enc.Represents get' ws now := by
  intro k
  rw [hget k, enc.filter_filter_present le_rfl, h k]

theorem Represents.step [Add T] [DecidableEq K] {ttl : K → T} {r : Request K T}
    (h : enc.Represents get ws r.time) (hget : ∀ k, get' k =
      if k = r.key then some (enc.encode r.key (hit ttl ws r).toWindow) else get k) :
    enc.Represents get' (Function.update ws r.key (some (hit ttl ws r).toWindow)) r.time := by
  intro k
  rw [hget k]
  by_cases hk : k = r.key
  · subst hk
    rw [if_pos rfl, Function.update_self, ← map_some, filter_map_encode]
  · rw [if_neg hk, Function.update_of_ne hk, h k]

end Encoding

/-! ### Requests are numbered in their window -/

section

variable (k : K) (e : T)

/-- The request was counted in the window of `k` that ends at `e`. -/
def Hit.isIn (h : Hit K T) : Bool := h.key = k ∧ h.expiresAt = e

/-- The counts received in a window. -/
def countsIn (hs : List (Hit K T)) : List ℕ := (hs.filter (·.isIn k e)).map fun h => h.count

/-- The `n` requests of the window that ends at `e` are numbered, where `o` is the key's present
window. -/
structure Numbered (hs : List (Hit K T)) (o : Option (Window T)) (n : ℕ) : Prop where
  counts : countsIn k e hs = List.range' 1 n
  unopened : (∀ w, o = some w → w.expiresAt < e) → n = 0
  counted : ∀ w, o = some w → w.expiresAt = e → n = w.count

variable {k e} {hs : List (Hit K T)} {h : Hit K T} {o : Option (Window T)} {n : ℕ}

omit [Add T] in
theorem countsIn_concat_of_isIn (hin : h.isIn k e = true) :
    countsIn k e (hs ++ [h]) = countsIn k e hs ++ [h.count] := by
  rw [countsIn, filter_append, filter_singleton, hin]
  exact map_append

omit [Add T] in
theorem countsIn_concat_of_not_isIn (hout : h.isIn k e = false) :
    countsIn k e (hs ++ [h]) = countsIn k e hs := by
  rw [countsIn, filter_append, filter_singleton, hout]
  exact congrArg _ (append_nil _)

omit [Add T] in
theorem Numbered.other (hn : Numbered k e hs o n) (hkey : h.key ≠ k) :
    Numbered k e (hs ++ [h]) o n := by
  have hout : h.isIn k e = false := decide_eq_false fun hin => hkey hin.1
  exact ⟨(countsIn_concat_of_not_isIn hout).trans hn.counts, hn.unopened, hn.counted⟩

/-- A request of the key. -/
theorem Numbered.hit {ttl now : T} (hn : Numbered k e hs o n) (httl : now < now + ttl)
    (hkey : h.key = k) (hcount : h.count = (current ttl now o).count + 1)
    (hexpires : h.expiresAt = (current ttl now o).expiresAt) :
    ∃ n', Numbered k e (hs ++ [h]) (some h.toWindow) n' := by
  have hcurrent := current_cases httl o
  by_cases he : h.expiresAt = e
  · have hnumber : n = (current ttl now o).count := by
      rcases hcurrent with ⟨ho, -⟩ | ⟨hnew, hlater⟩
      · exact hn.counted _ ho (hexpires.symm.trans he)
      · rw [hnew] at hexpires ⊢
        exact hn.unopened fun w ho => (hlater w ho).trans_eq (hexpires.symm.trans he)
    have hin : h.isIn k e = true := decide_eq_true ⟨hkey, he⟩
    refine ⟨n + 1, ?_, fun hlt => absurd he (hlt _ rfl).ne, ?_⟩
    · rw [countsIn_concat_of_isIn hin, hn.counts, range'_1_concat, hcount, hnumber,
        Nat.add_comm]
    · rintro w ⟨⟩ -
      rw [hcount, hnumber]
  · have hout : h.isIn k e = false := decide_eq_false fun hin => he hin.2
    refine ⟨n, (countsIn_concat_of_not_isIn hout).trans hn.counts, fun hlt => hn.unopened ?_, ?_⟩
    · intro w ho
      have hlt' : (current ttl now o).expiresAt < e := hexpires ▸ hlt _ rfl
      rcases hcurrent with ⟨ho', -⟩ | ⟨hnew, hlater⟩
      · obtain rfl := some.inj (ho.symm.trans ho')
        exact hlt'
      · rw [hnew] at hlt'
        exact (hlater w ho).trans hlt'
    · rintro w ⟨⟩ he'
      exact absurd he' he

end

/-- **Requests are numbered**: the counts received in a window are 1, 2, 3 and so on. -/
theorem counts_eq_range {ttl : K → T} (httl : ∀ k now, now < now + ttl k)
    (rs : List (Request K T)) (k : K) (e : T) :
    ∃ n, countsIn k e (hits ttl rs) = List.range' 1 n := by
  have hnumbered : ∃ n, Numbered k e (hits ttl rs) (windows ttl rs k) n := by
    refine calls_induction
      (P := fun done => ∃ n, Numbered k e (hits ttl done) (windows ttl done k) n)
      ⟨0, rfl, fun _ => rfl, nofun⟩ ?_ rs (prefix_refl rs)
    rintro done r - ⟨n, hn⟩
    rw [hits_concat, windows_concat]
    by_cases hk : k = r.key
    · subst hk
      rw [Function.update_self]
      exact hn.hit (httl r.key r.time) rfl rfl rfl
    · rw [Function.update_of_ne hk]
      exact ⟨n, hn.other (Ne.symm hk)⟩
  obtain ⟨n, hn⟩ := hnumbered
  exact ⟨n, hn.counts⟩

theorem countP_range'_le (n limit : ℕ) : (List.range' 1 n).countP (· ≤ limit) ≤ limit := by
  have hmin : (range' 1 n).countP (· ≤ limit) = min n limit := by
    induction n with
    | zero => simp
    | succ n ih =>
      rw [range'_1_concat, countP_append, ih, countP_singleton]
      by_cases h : 1 + n ≤ limit <;> simp only [h, decide_true, decide_false] <;> grind
  omega

/-- **The bound**: a window admits at most `limit` requests. -/
theorem countP_le {ttl : K → T} (httl : ∀ k now, now < now + ttl k) (rs : List (Request K T))
    (k : K) (e : T) (limit : ℕ) :
    (hits ttl rs).countP (fun h => h.count ≤ limit && h.isIn k e) ≤ limit := by
  obtain ⟨n, hn⟩ := counts_eq_range httl rs k e
  have hcount := countP_range'_le n limit
  rwa [← hn, countsIn, countP_map, countP_filter] at hcount

end ServiceToolkit.FixedWindow
