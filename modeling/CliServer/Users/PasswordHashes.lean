import CliServer.Commands.Pages
import CliServer.Lib.Base64
import CliServer.Lib.Utf8
import CliServer.Users.Passwords

/-!
# Stored passwords

A stored hash is the text `pbkdf2$100000$<salt>$<key>`; a legacy one is the hexadecimal text of a digest, with its salt
beside it.  A hash that was stored is read back as its salt and its key, so that a password is right for it exactly if
it derives the same key (`stored_passwords`).
-/

namespace CliServer

/-- The functions of `hashlib`; `pbkdf2_hmac` of SHA-256 raises for a number that a C `long` does not hold. -/
structure Hashlib where
  pbkdf2 : (password salt : List UInt8) → (iterations length : Nat) → Option (List UInt8)
  sha256 : List UInt8 → List UInt8
  pbkdf2_some : ∀ password salt iterations length, 0 < iterations → iterations < 2 ^ 31 → 0 < length →
    length < 2 ^ 31 → ∃ key, pbkdf2 password salt iterations length = some key ∧ key.length = length
  length_sha256 : ∀ bytes, (sha256 bytes).length = 32

instance : Inhabited Hashlib where
  default :=
    { pbkdf2 := fun _ _ _ length => some (List.replicate length 0)
      sha256 := fun _ => List.replicate 32 0
      pbkdf2_some := fun _ _ _ _ _ _ _ _ => ⟨_, rfl, List.length_replicate⟩
      length_sha256 := fun _ => List.length_replicate }

def hashIterations : Nat := 100000

def saltBytes : Nat := 16

def keyBytes : Nat := 32

def hashPrefix : Str := "pbkdf2".toList

variable (lib : Hashlib)

/-- `hash_password`, for the salt that is drawn. -/
def hashPassword (password : Str) (salt : List UInt8) : Option (Str × Str) :=
  (lib.pbkdf2 (Utf8.encode password) salt hashIterations keyBytes).map fun key =>
    (['$'].intercalate [hashPrefix, intText hashIterations, Base64.encode salt, Base64.encode key], Base64.encode salt)

/-- `hexdigest`. -/
def hexText (bytes : List UInt8) : Str :=
  bytes.flatMap fun b => [Nat.digitChar (b.toNat / 16), Nat.digitChar (b.toNat % 16)]

/-- The legacy hash of a password. -/
def legacyHash (legacySalt password : Str) : Str := hexText (lib.sha256 (Utf8.encode (legacySalt ++ password)))

/-- The text is an encoded hash: its iterations, salt and key, as texts. -/
def encodedParts (encoded : Str) : Option (Str × Str × Str) :=
  match encoded.splitOn '$' with
  | [name, iterations, salt, key] => if name = hashPrefix then some (iterations, salt, key) else none
  | _ => none

/-- `verify_password`; `none` if it raises. -/
def verifyPassword (password encoded legacySalt : Str) : Option Bool :=
  if encoded = [] then some false
  else match encodedParts encoded with
    | none => some (Utf8.encode (legacyHash lib legacySalt password) = Utf8.encode encoded)
    | some (iterations, salt, key) =>
      match intOfText? iterations, Base64.decode salt, Base64.decode key with
      | some iterations, some salt, some expected =>
        if iterations ≤ 0 ∨ expected = [] then some false
        else (lib.pbkdf2 (Utf8.encode password) salt iterations.toNat expected.length).map (· = expected)
      | _, _, _ => some false

/-- `needs_rehash`. -/
def needsRehash (encoded : Str) : Bool :=
  match encoded.splitOn '$' with
  | [name, iterations, _, _] => !(name = hashPrefix && iterations = intText hashIterations)
  | _ => true

/-! ### The texts -/

variable {lib} {password other legacySalt encoded saltText : Str} {salt key : List UInt8}

private theorem dollar_notMem_encode (bytes : List UInt8) : '$' ∉ Base64.encode bytes := fun h =>
  absurd (Base64.significant_of_mem_encode bytes '$' h) (by decide)

/-- The parts of an encoded hash are read back. -/
private theorem splitOn_encoded (salt key : List UInt8) :
    (['$'].intercalate [hashPrefix, intText hashIterations, Base64.encode salt, Base64.encode key]).splitOn '$' =
      [hashPrefix, intText hashIterations, Base64.encode salt, Base64.encode key] := by
  refine List.splitOn_intercalate '$' (fun part hpart => ?_) (List.cons_ne_nil _ _)
  simp only [List.mem_cons, List.not_mem_nil, or_false] at hpart
  rcases hpart with rfl | rfl | rfl | rfl
  · decide
  · decide +kernel
  · exact dollar_notMem_encode salt
  · exact dollar_notMem_encode key

private theorem intOfText?_hashIterations : intOfText? (intText hashIterations) = some (hashIterations : ℤ) := by
  decide +kernel

private theorem digitChar_ne_dollar {n : Nat} (h : n < 16) : Nat.digitChar n ≠ '$' := by
  revert h
  revert n
  decide

private theorem digitChar_inj {m n : Nat} (hm : m < 16) (hn : n < 16) (h : Nat.digitChar m = Nat.digitChar n) :
    m = n := by
  revert h
  revert hn
  revert n
  revert hm
  revert m
  decide

private theorem dollar_notMem_hexText (bytes : List UInt8) : '$' ∉ hexText bytes := by
  intro h
  obtain ⟨b, -, hb⟩ := List.mem_flatMap.1 h
  have hlt := b.toNat_lt
  rcases List.mem_pair.1 hb with heq | heq
  · exact digitChar_ne_dollar (by omega) heq.symm
  · exact digitChar_ne_dollar (by omega) heq.symm

private theorem hexText_injective : Function.Injective hexText := by
  intro xs
  induction xs with
  | nil =>
    rintro (_ | ⟨y, ys⟩) h
    · rfl
    · cases h
  | cons x xs ih =>
    rintro (_ | ⟨y, ys⟩) h
    · cases h
    · have hx := x.toNat_lt
      have hy := y.toNat_lt
      obtain ⟨hhigh, htail⟩ := List.cons.inj h
      obtain ⟨hlow, hrest⟩ := List.cons.inj htail
      have hhigh := digitChar_inj (by omega) (by omega) hhigh
      have hlow := digitChar_inj (by omega) (by omega) hlow
      have hxy : x = y := UInt8.toNat_inj.1 (by omega)
      rw [hxy, ih hrest]

private theorem utf8_encode_inj {s t : Str} : Utf8.encode s = Utf8.encode t ↔ s = t := by
  refine ⟨fun h => ?_, fun h => h ▸ rfl⟩
  rw [← Utf8.decode_encode s, h, Utf8.decode_encode]

/-! ### What is stored -/

private theorem hashPassword_some (lib : Hashlib) (password : Str) (salt : List UInt8) :
    ∃ key, lib.pbkdf2 (Utf8.encode password) salt hashIterations keyBytes = some key ∧ key.length = keyBytes ∧
      hashPassword lib password salt =
        some (['$'].intercalate [hashPrefix, intText hashIterations, Base64.encode salt, Base64.encode key],
          Base64.encode salt) := by
  obtain ⟨key, hkey, hlength⟩ :=
    lib.pbkdf2_some (Utf8.encode password) salt hashIterations keyBytes (by decide) (by decide) (by decide) (by decide)
  refine ⟨key, hkey, hlength, ?_⟩
  rw [hashPassword, hkey, Option.map_some]

private theorem encoded_ne_nil (salt key : List UInt8) :
    ['$'].intercalate [hashPrefix, intText hashIterations, Base64.encode salt, Base64.encode key] ≠ [] := by
  intro h
  have hsplit := splitOn_encoded salt key
  rw [h] at hsplit
  cases hsplit

private theorem verifyPassword_encoded (hlength : key.length = keyBytes) :
    verifyPassword lib other
        (['$'].intercalate [hashPrefix, intText hashIterations, Base64.encode salt, Base64.encode key]) legacySalt =
      (lib.pbkdf2 (Utf8.encode other) salt hashIterations keyBytes).map fun actual => decide (actual = key) := by
  have hne : key ≠ [] := by
    rintro rfl
    cases hlength
  have hpositive : ¬((hashIterations : ℤ) ≤ 0 ∨ key = []) := by
    rintro (hle | hnil)
    · exact absurd hle (by decide)
    · exact hne hnil
  rw [verifyPassword, if_neg (encoded_ne_nil salt key), encodedParts, splitOn_encoded]
  simp only [if_true, intOfText?_hashIterations, Base64.decode_encode, if_neg hpositive, hlength, Int.toNat_natCast]

private theorem needsRehash_encoded : needsRehash
    (['$'].intercalate [hashPrefix, intText hashIterations, Base64.encode salt, Base64.encode key]) = false := by
  rw [needsRehash, splitOn_encoded]
  simp

private theorem splitOn_legacyHash :
    (legacyHash lib legacySalt password).splitOn '$' = [legacyHash lib legacySalt password] :=
  List.splitOn_eq_singleton (dollar_notMem_hexText _)

private theorem legacyHash_ne_nil : legacyHash lib legacySalt password ≠ [] := by
  intro h
  have hlength := lib.length_sha256 (Utf8.encode (legacySalt ++ password))
  rw [legacyHash] at h
  cases hdigest : lib.sha256 (Utf8.encode (legacySalt ++ password)) with
  | nil =>
    rw [hdigest] at hlength
    cases hlength
  | cons b bytes =>
    rw [hdigest] at h
    cases h

private theorem verifyPassword_legacyHash : verifyPassword lib other (legacyHash lib legacySalt password) legacySalt =
    some (decide (lib.sha256 (Utf8.encode (legacySalt ++ other)) =
      lib.sha256 (Utf8.encode (legacySalt ++ password)))) := by
  rw [verifyPassword, if_neg legacyHash_ne_nil, encodedParts, splitOn_legacyHash]
  simp only [utf8_encode_inj, legacyHash, hexText_injective.eq_iff]

/-- A hash that is stored is right for the password, and for another one exactly if that derives the same key; it needs
no rehash, and no other salt nor key gives it.  A legacy hash is right for the passwords of the same digest, and needs a
rehash. -/
theorem stored_passwords (lib : Hashlib) (password other legacySalt : Str) (salt salt' : List UInt8) :
    (∃ encoded, hashPassword lib password salt = some (encoded, Base64.encode salt) ∧ needsRehash encoded = false ∧
      (verifyPassword lib other encoded legacySalt = some true ↔
        lib.pbkdf2 (Utf8.encode other) salt hashIterations keyBytes =
          lib.pbkdf2 (Utf8.encode password) salt hashIterations keyBytes) ∧
      ∀ saltText, hashPassword lib other salt' = some (encoded, saltText) → salt' = salt ∧
        verifyPassword lib other encoded legacySalt = some true) ∧
    needsRehash (legacyHash lib legacySalt password) = true ∧
    (verifyPassword lib other (legacyHash lib legacySalt password) legacySalt = some true ↔
      lib.sha256 (Utf8.encode (legacySalt ++ other)) = lib.sha256 (Utf8.encode (legacySalt ++ password))) := by
  obtain ⟨key, hkey, hlength, hhash⟩ := hashPassword_some lib password salt
  have hright : verifyPassword lib other
      (['$'].intercalate [hashPrefix, intText hashIterations, Base64.encode salt, Base64.encode key]) legacySalt =
        some true ↔ lib.pbkdf2 (Utf8.encode other) salt hashIterations keyBytes = some key := by
    rw [verifyPassword_encoded hlength, Option.map_eq_some_iff]
    simp
  refine ⟨⟨_, hhash, needsRehash_encoded, by rw [hright, hkey], fun saltText hother => ?_⟩, ?_, ?_⟩
  · obtain ⟨key', hkey', -, hhash'⟩ := hashPassword_some lib other salt'
    have hparts := congrArg (List.splitOn '$') (Prod.mk.inj (Option.some.inj (hhash'.symm.trans hother))).1
    rw [splitOn_encoded, splitOn_encoded] at hparts
    simp only [List.cons.injEq, true_and, and_true] at hparts
    obtain rfl := Base64.encode_injective hparts.1
    obtain rfl := Base64.encode_injective hparts.2
    exact ⟨rfl, hright.2 hkey'⟩
  · rw [needsRehash, splitOn_legacyHash]
  · rw [verifyPassword_legacyHash, Option.some_inj, decide_eq_true_iff]

/-- The salts as numbers. -/
def saltOfNumber (n : Nat) : List UInt8 := (List.range saltBytes).map fun i => UInt8.ofNat (n / 256 ^ i)

/-- What password operations need of a hasher holds of the stored hashes, with their legacy salts. -/
def storedHasher (lib : Hashlib) : PasswordHasher (Str × Str) where
  hash password n := (hashPassword lib password (saltOfNumber n)).getD ([], [])
  verify password stored := verifyPassword lib password stored.1 stored.2 = some true
  needsRehash stored := needsRehash stored.1
  verify_hash password n := by
    obtain ⟨key, hkey, hlength, hhash⟩ := hashPassword_some lib password (saltOfNumber n)
    rw [hhash, Option.getD_some, verifyPassword_encoded hlength, hkey]
    simp
  hash_current password n := by
    obtain ⟨key, -, -, hhash⟩ := hashPassword_some lib password (saltOfNumber n)
    rw [hhash, Option.getD_some, needsRehash_encoded]

/-- The right password against a legacy hash: after the verification it is hashed again, and what is stored then is
current and right for it. -/
theorem legacy_rehashed (lib : Hashlib) (t : CaseTable) (opts : AuthServiceOptions) (s : AccountState (Str × Str))
    (n change now : Nat) (newId password legacySalt : Str) (next : FollowUp) (user : User) :
    let hasher := storedHasher lib
    let credentials : Credentials (Str × Str) := ⟨(legacyHash lib legacySalt password, legacySalt), change⟩
    resumeTask hasher t opts s n newId now (.verifying next user password credentials) =
        some (s.spawn (.rehashing next user password credentials)) ∧
      ∃ s' stored, resumeTask hasher t opts s n newId now (.rehashing next user password credentials) = some s' ∧
        s'.getCredentials user.id = some stored ∧ stored.change = change ∧
        hasher.verify password stored.hash = true ∧ hasher.needsRehash stored.hash = false := by
  intro hasher credentials
  have hverify : hasher.verify password credentials.hash = true := by
    show decide (verifyPassword lib password (legacyHash lib legacySalt password) legacySalt = some true) = true
    rw [verifyPassword_legacyHash, decide_eq_true rfl]
    rfl
  have hlegacy : hasher.needsRehash credentials.hash = true := by
    show needsRehash (legacyHash lib legacySalt password) = true
    rw [needsRehash, splitOn_legacyHash]
  refine ⟨?_, _, ⟨hasher.hash password n, change⟩, rfl, ?_, rfl, hasher.verify_hash password n,
    hasher.hash_current password n⟩
  · rw [resumeTask, if_pos hverify, if_pos hlegacy]
  · have hold : (s.credentials.filter (·.1 ≠ user.id)).find? (·.1 = user.id) = none := by
      rw [List.find?_eq_none]
      intro e he
      simpa using (List.mem_filter.1 he).2
    rw [AccountState.getCredentials, AccountState.spawn, AccountState.setPassword, List.find?_append, hold,
      Option.none_or, List.find?_cons_of_pos (by simp), Option.map_some]

end CliServer
