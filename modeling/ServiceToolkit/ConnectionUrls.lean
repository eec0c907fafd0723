import ServiceToolkit.UriText

/-!
# Connection URLs

`RedisSettings.redis_url` and `DatabaseSettings.connection_url` build a URL out of the settings.
The first quotes the user's name and password, with a function that leaves slashes as they are,
and drops a name without a password; the second quotes nothing. Whether the URL **carries** the
settings is asked of its text: taken apart by the rules of `UriText` and decoded, it has to give
their octets back. A user or password that is not set counts as empty, and a host name has no
character that ends it.
-/

namespace ServiceToolkit.ConnectionUrls

open List Uri

/-- An integer, as it is written. -/
def intText : ℤ → List Char
  | .ofNat n => Nat.toDigits 10 n
  | .negSucc n => '-' :: Nat.toDigits 10 (n + 1)

/-- A host and a port. -/
def hostport (host : List Char) (port : ℤ) : List Char := host ++ ':' :: intText port

/-- `RedisSettings`, as far as the URL reads it. -/
structure RedisSettings where
  url : Option (List Char) := none
  host : List Char := "127.0.0.1".toList
  port : ℤ := 6379
  db : ℤ := 0
  username : Option (List Char) := none
  password : Option (List Char) := none

/-- `RedisSettings.redis_url`. -/
def RedisSettings.redisUrl (s : RedisSettings) : List Char :=
  let username := s.username.getD []
  let password := s.password.getD []
  let auth :=
    if username ≠ [] ∧ password ≠ [] then quote username ++ ':' :: quote password ++ ['@']
    else if password ≠ [] then ':' :: quote password ++ ['@']
    else []
  if s.url.getD [] ≠ [] then s.url.getD []
  else build "redis".toList (auth ++ hostport s.host s.port) (intText s.db)

/-- `DatabaseSettings`. -/
structure DatabaseSettings where
  host : List Char := "localhost".toList
  port : ℤ := 5432
  user : List Char := "postgres".toList
  password : List Char := "postgres".toList
  name : List Char := "app".toList
  url : Option (List Char) := none

/-- `DatabaseSettings.connection_url`. -/
def DatabaseSettings.connectionUrl (s : DatabaseSettings) : List Char :=
  if s.url.getD [] ≠ [] then s.url.getD []
  else build "postgresql+asyncpg".toList
    (s.user ++ ':' :: s.password ++ '@' :: hostport s.host s.port) s.name

/-- The text of a host name has no delimiter, bracket or percent sign. -/
def IsHostName (host : List Char) : Prop :=
  ∀ c ∈ host, isPlain c = true ∧ c ∉ ['@', ':', '[', ']', '%']

instance decidableIsHostName (host : List Char) : Decidable (IsHostName host) :=
  decidableBAll _ host

/-- The URL **carries** the settings: it gives their octets back. -/
structure Carries (url user password host port database : List Char) : Prop where
  user : percentDecode (split url).1.user = utf8 user
  password : percentDecode (split url).1.password = utf8 password
  host : percentDecode (split url).1.host = utf8 host
  port : percentDecode (split url).1.port = utf8 port
  database : percentDecode (split url).2 = utf8 database

variable {scheme host user password name database authority u p : List Char} {port : ℤ}

/-! ### URLs in general -/

theorem isHostName_intText (n : ℤ) : IsHostName (intText n) := by
  intro c hc
  have hdigit : c = '-' ∨ c.isDigit = true := by
    cases n with
    | ofNat n => exact .inr (Nat.isDigit_of_mem_toDigits (by omega) (by omega) hc)
    | negSucc n =>
      refine (mem_cons.mp hc).imp_right fun hc => ?_
      exact Nat.isDigit_of_mem_toDigits (by omega) (by omega) hc
  have hno : ∀ c' : Char, c' ≠ '-' → c'.isDigit = false → c ≠ c' := by
    rintro c' hne hnot rfl
    rcases hdigit with h | h
    · exact hne h
    · rw [hnot] at h
      cases h
  simp [isPlain, hno '/', hno '?', hno '#', hno '@', hno ':', hno '[', hno ']', hno '%']

theorem IsHostName.notMem (h : IsHostName host) {c : Char} (hc : c ∈ ['@', ':', '[', ']', '%']) :
    c ∉ host :=
  fun hmem => (h c hmem).2 hc

theorem IsHostName.decode (h : IsHostName host) : percentDecode host = utf8 host :=
  percentDecode_of_not_hasEscape _ (hasEscape_of_notMem (h.notMem (by simp)))

theorem notMem_intText (port : ℤ) : '@' ∉ intText port ∧ ':' ∉ intText port :=
  ⟨(isHostName_intText port).notMem (by simp), (isHostName_intText port).notMem (by simp)⟩

theorem isPlain_hostport (hhost : IsHostName host) (port : ℤ) :
    ∀ c ∈ hostport host port, isPlain c = true := by
  intro c hc
  rcases mem_append.mp hc with hc | hc
  · exact (hhost c hc).1
  · rcases mem_cons.mp hc with rfl | hc
    · rfl
    · exact (isHostName_intText port c hc).1

theorem carries_iff_of_plain (hscheme : '/' ∉ scheme) (hhost : IsHostName host)
    (hplain : ∀ c ∈ authority, isPlain c = true)
    (hsplit : splitAuthority authority = ⟨u, p, host, intText port⟩) :
    Carries (build scheme authority name) user password host (intText port) database ↔
      percentDecode u = utf8 user ∧ percentDecode p = utf8 password ∧
        percentDecode (name.takeWhile fun c => c ≠ '?' && c ≠ '#') = utf8 database := by
  have heq := split_of_plain hscheme hplain name
  rw [hsplit] at heq
  constructor
  · rintro ⟨hu, hp, -, -, hd⟩
    rw [heq] at hu hp hd
    exact ⟨hu, hp, hd⟩
  · rintro ⟨hu, hp, hd⟩
    constructor <;> rw [heq]
    · exact hu
    · exact hp
    · exact hhost.decode
    · exact (isHostName_intText port).decode
    · exact hd

theorem carries_iff_of_userinfo (hscheme : '/' ∉ scheme) (hhost : IsHostName host)
    (hplain : ∀ c ∈ u ++ ':' :: p, isPlain c = true) (hcolon : ':' ∉ u) :
    Carries (build scheme (u ++ ':' :: p ++ '@' :: hostport host port) name) user password host
        (intText port) database ↔
      percentDecode u = utf8 user ∧ percentDecode p = utf8 password ∧
        percentDecode (name.takeWhile fun c => c ≠ '?' && c ≠ '#') = utf8 database := by
  refine carries_iff_of_plain hscheme hhost (fun c hc => ?_) ?_
  · rcases mem_append.mp hc with hc | hc
    · exact hplain c hc
    · rcases mem_cons.mp hc with rfl | hc
      · rfl
      · exact isPlain_hostport hhost port c hc
  · rw [hostport, splitAuthority_userinfo _ (hhost.notMem (by simp)) (notMem_intText port),
      atFirst_append hcolon]

theorem Carries.length_le {userinfo rest : List Char} (hscheme : '/' ∉ scheme)
    (hcut : ∃ c ∈ userinfo, isPlain c = false)
    (h : Carries (build scheme (userinfo ++ rest) name) user password host (intText port)
      database) : (utf8 user).length + (utf8 password).length ≤
        (utf8 (atLast '@' (userinfo.takeWhile isPlain)).1).length := by
  rw [← h.user, ← h.password, split_of_cut hscheme hcut]
  have hu := length_percentDecode (splitAuthority (userinfo.takeWhile isPlain)).user
  have hp := length_percentDecode (splitAuthority (userinfo.takeWhile isPlain)).password
  have hboth := length_atFirst ':' (atLast '@' (userinfo.takeWhile isPlain)).1
  simp only [splitAuthority] at hu hp ⊢
  omega

theorem decode_path_iff (name : List Char) :
    percentDecode (name.takeWhile fun c => c ≠ '?' && c ≠ '#') = utf8 name ↔
      (∀ c ∈ name, c ≠ '?' ∧ c ≠ '#') ∧ hasEscape name = false := by
  by_cases h : ∀ c ∈ name, c ≠ '?' ∧ c ≠ '#'
  · have hself : (name.takeWhile fun c => c ≠ '?' && c ≠ '#') = name :=
      takeWhile_eq_self_iff.mpr fun c hc => by simpa using h c hc
    rw [hself, percentDecode_eq_utf8_iff, and_iff_right h]
  · refine iff_of_false (fun heq => ?_) fun hc => h hc.1
    have hdecode := length_percentDecode (name.takeWhile fun c => c ≠ '?' && c ≠ '#')
    have hlt : (utf8 (name.takeWhile fun c => c ≠ '?' && c ≠ '#')).length < (utf8 name).length := by
      refine length_takeWhile ?_
      simpa [imp_iff_not_or] using h
    rw [heq] at hdecode
    omega

/-! ### Redis -/

theorem isPlain_of_mem_quote {s : List Char} (h : '/' ∉ s) {c : Char} (hc : c ∈ quote s) :
    isPlain c = true := by
  have hne : c ≠ '/' := fun heq => h ((slash_mem_quote_iff s).mp (heq ▸ hc))
  have hno := notMem_quote hc
  simp_all [isPlain]

theorem decode_path_intText (n : ℤ) :
    percentDecode ((intText n).takeWhile fun c => c ≠ '?' && c ≠ '#') = utf8 (intText n) := by
  refine (decode_path_iff _).mpr ⟨fun c hc => ?_, hasEscape_of_notMem ?_⟩
  · have hplain := (isHostName_intText n c hc).1
    simp_all [isPlain]
  · exact (isHostName_intText n).notMem (by simp)

theorem redis_quoted_iff (hscheme : '/' ∉ scheme) (hhost : IsHostName host)
    (hpassword : password ≠ []) (db : ℤ) :
    Carries (build scheme (quote user ++ ':' :: quote password ++ '@' :: hostport host port)
        (intText db)) user password host (intText port) (intText db) ↔
      '/' ∉ user ∧ '/' ∉ password := by
  constructor
  · intro h
    by_contra hslash
    have hcut : ∃ c ∈ quote user ++ ':' :: quote password, isPlain c = false := by
      refine ⟨'/', ?_, rfl⟩
      rw [mem_append, mem_cons, slash_mem_quote_iff, slash_mem_quote_iff]
      tauto
    have hat : '@' ∉ (quote user ++ ':' :: quote password).takeWhile isPlain := by
      intro hmem
      rcases mem_append.mp (takeWhile_subset _ hmem) with hq | hq
      · exact notMem_quote hq (by simp)
      · rcases mem_cons.mp hq with hq | hq
        · cases hq
        · exact notMem_quote hq (by simp)
    have hlength := h.length_le hscheme hcut
    rw [atLast_of_notMem hat] at hlength
    exact hpassword (utf8_eq_nil (Nat.add_eq_zero_iff.mp (Nat.le_zero.mp hlength)).2)
  · rintro ⟨hu, hp⟩
    have hplain : ∀ c ∈ quote user ++ ':' :: quote password, isPlain c = true := by
      intro c hc
      rcases mem_append.mp hc with hc | hc
      · exact isPlain_of_mem_quote hu hc
      · rcases mem_cons.mp hc with rfl | hc
        · rfl
        · exact isPlain_of_mem_quote hp hc
    rw [carries_iff_of_userinfo hscheme hhost hplain fun hmem => notMem_quote hmem (by simp)]
    exact ⟨percentDecode_quote user, percentDecode_quote password, decode_path_intText db⟩

/-- **Redis**: the URL carries the settings if and only if a user comes with a password, and
neither has a slash. -/
theorem redisUrl_carries_iff (s : RedisSettings) (hurl : s.url.getD [] = [])
    (hhost : IsHostName s.host) :
    Carries s.redisUrl (s.username.getD []) (s.password.getD []) s.host (intText s.port)
        (intText s.db) ↔
      (s.username.getD [] = [] ∨ s.password.getD [] ≠ []) ∧ '/' ∉ s.username.getD [] ∧
        '/' ∉ s.password.getD [] := by
  have hscheme : '/' ∉ "redis".toList := by decide
  rw [RedisSettings.redisUrl, if_neg (not_not.mpr hurl)]
  generalize s.username.getD [] = username
  generalize s.password.getD [] = password
  by_cases hpassword : password = []
  · -- no password: the URL has no userinfo at all
    subst hpassword
    simp only [ne_eq, not_true_eq_false, and_false, if_false, or_false, nil_append]
    rw [carries_iff_of_plain hscheme hhost (isPlain_hostport hhost s.port)
      (splitAuthority_host (hhost.notMem (by simp)) (notMem_intText s.port))]
    constructor
    · rintro ⟨hu, -, -⟩
      obtain rfl := utf8_eq_nil (congrArg length hu.symm)
      simp
    · rintro ⟨rfl, -, -⟩
      exact ⟨rfl, rfl, decode_path_intText s.db⟩
  · have hauth : (if username ≠ [] ∧ password ≠ [] then
        quote username ++ ':' :: quote password ++ ['@']
        else if password ≠ [] then ':' :: quote password ++ ['@'] else []) =
        quote username ++ ':' :: quote password ++ ['@'] := by
      by_cases husername : username = []
      · simp [husername, hpassword, quote, utf8]
      · simp [husername, hpassword]
    rw [hauth, append_assoc, singleton_append, redis_quoted_iff hscheme hhost hpassword s.db]
    simp [hpassword]

/-! ### The database -/

/-- **The database**: the URL carries the settings if and only if the user and the password have
no delimiter and the user no colon, the name of the database has no question mark or hash, and
none of the three has an escape. -/
theorem connectionUrl_carries_iff (s : DatabaseSettings) (hurl : s.url.getD [] = [])
    (hhost : IsHostName s.host) :
    Carries s.connectionUrl s.user s.password s.host (intText s.port) s.name ↔
      (∀ c ∈ s.user ++ s.password, isPlain c = true) ∧ ':' ∉ s.user ∧
        (∀ c ∈ s.name, c ≠ '?' ∧ c ≠ '#') ∧
        hasEscape s.user = false ∧ hasEscape s.password = false ∧ hasEscape s.name = false := by
  have hscheme : '/' ∉ "postgresql+asyncpg".toList := by decide
  rw [DatabaseSettings.connectionUrl, if_neg (not_not.mpr hurl)]
  by_cases hplain : ∀ c ∈ s.user ++ ':' :: s.password, isPlain c = true
  · have hboth : ∀ c ∈ s.user ++ s.password, isPlain c = true := by
      intro c hc
      rcases mem_append.mp hc with hc | hc
      · exact hplain c (mem_append_left _ hc)
      · exact hplain c (mem_append_right _ (mem_cons_of_mem _ hc))
    rw [and_iff_right hboth]
    by_cases hcolon : ':' ∈ s.user
    · -- the user ends at its first colon
      refine iff_of_false (fun h => ?_) fun h => h.1 hcolon
      obtain ⟨x, y, hxy, hx⟩ := eq_append_cons_of_mem hcolon
      have hsplit : s.user ++ ':' :: s.password = x ++ ':' :: (y ++ ':' :: s.password) := by
        simp [hxy]
      rw [hsplit] at hplain h
      have huser := ((carries_iff_of_userinfo hscheme hhost hplain hx).mp h).1
      have hlength := length_percentDecode x
      have hpos := one_le_length_utf8EncodeChar ':'
      rw [huser, hxy, utf8_append, utf8_cons] at hlength
      simp only [length_append] at hlength
      omega
    · rw [carries_iff_of_userinfo hscheme hhost hplain hcolon, percentDecode_eq_utf8_iff,
        percentDecode_eq_utf8_iff, decode_path_iff]
      tauto
  · -- the authority ends inside the userinfo
    have hcut : ∃ c ∈ s.user ++ ':' :: s.password, isPlain c = false := by
      simpa using hplain
    refine iff_of_false (fun h => ?_) fun h => ?_
    · have hle := h.length_le hscheme hcut
      have hlt := length_takeWhile hcut
      rcases length_atLast '@' ((s.user ++ ':' :: s.password).takeWhile isPlain) with hnil | hlast
      · rw [hnil] at hle
        have hzero := Nat.add_eq_zero_iff.mp (Nat.le_zero.mp hle)
        rw [utf8_eq_nil hzero.1, utf8_eq_nil hzero.2] at hcut
        simp [isPlain] at hcut
      · have hone : (String.utf8EncodeChar ':').length = 1 := by decide
        simp only [utf8_append, utf8_cons, length_append, hone] at hlt
        omega
    · refine hplain fun c hc => ?_
      rcases mem_append.mp hc with hc | hc
      · exact h.1 c (mem_append_left _ hc)
      · rcases mem_cons.mp hc with rfl | hc
        · rfl
        · exact h.1 c (mem_append_right _ hc)

/-- **What the URLs carry**: for every user, password, port and database and every host name, and
without an explicit URL. -/
theorem connectionUrls_carry_iff (r : RedisSettings) (d : DatabaseSettings)
    (hr : r.url.getD [] = [] ∧ IsHostName r.host) (hd : d.url.getD [] = [] ∧ IsHostName d.host) :
    (Carries r.redisUrl (r.username.getD []) (r.password.getD []) r.host (intText r.port)
        (intText r.db) ↔
      (r.username.getD [] = [] ∨ r.password.getD [] ≠ []) ∧ '/' ∉ r.username.getD [] ∧
        '/' ∉ r.password.getD []) ∧
    (Carries d.connectionUrl d.user d.password d.host (intText d.port) d.name ↔
      (∀ c ∈ d.user ++ d.password, isPlain c = true) ∧ ':' ∉ d.user ∧
        (∀ c ∈ d.name, c ≠ '?' ∧ c ≠ '#') ∧
        hasEscape d.user = false ∧ hasEscape d.password = false ∧ hasEscape d.name = false) :=
  ⟨redisUrl_carries_iff r hr.1 hr.2, connectionUrl_carries_iff d hd.1 hd.2⟩

/-- The defaults, with a password for Redis. -/
theorem default_urls_carry :
    Carries { password := some "p@ss:word".toList : RedisSettings }.redisUrl [] "p@ss:word".toList
        "127.0.0.1".toList (intText 6379) (intText 0) ∧
      Carries ({} : DatabaseSettings).connectionUrl "postgres".toList "postgres".toList
        "localhost".toList (intText 5432) "app".toList := by
  have hboth := connectionUrls_carry_iff { password := some "p@ss:word".toList } {}
    ⟨rfl, by decide⟩ ⟨rfl, by decide⟩
  refine ⟨hboth.1.mpr (by decide), hboth.2.mpr ⟨all_eq_true.mp rfl, by decide, ?_, by decide⟩⟩
  exact @of_decide_eq_true _ (decidableBAll _ _) rfl

/-- **A slash in a password**: the text of the URL up to it names another host, and no user. -/
theorem slash_in_password :
    (split { password := some "p/w".toList : RedisSettings }.redisUrl).1 =
        ⟨[], [], [], "p".toList⟩ ∧
      (split { password := "p/w@".toList : DatabaseSettings }.connectionUrl).1 =
        ⟨[], [], "postgres".toList, "p".toList⟩ ∧
      ¬ Carries { password := some "p/w".toList : RedisSettings }.redisUrl [] "p/w".toList
        "127.0.0.1".toList (intText 6379) (intText 0) := by
  refine ⟨by decide, by decide, fun h => ?_⟩
  have hpassword := h.password
  revert hpassword
  decide

end ServiceToolkit.ConnectionUrls
