import CliServer.Users.Permissions

/-!
# Input validation

The checks of names, emails and texts that `UsersService` makes before anything else.
-/

namespace CliServer

/-- `NAME_RE`, between its anchors. -/
def nameRe : Regex Char :=
  .cat (.set Char.isAlphanum) (.star (.set fun c => c.isAlphanum || c ∈ ['.', '_', '@', '-']))

/-- `NAME_MAX`. -/
def nameMax : Nat := 64

/-- The characters of an atom of an email's local part. -/
def isAtomChar (c : Char) : Bool :=
  c.isAlphanum || c ∈ "!#$%&*+/=?^_|~-".toList || c ∈ ['\x27', '\x60', '\x7b', '\x7d']

/-- A label of a domain. -/
def labelRe : Regex Char :=
  .cat (.set Char.isAlphanum)
    (.opt (.cat (.upTo (.set fun c => c.isAlphanum || c = '-') 61) (.set Char.isAlphanum)))

/-- `EMAIL_RE` after its lookahead. -/
def emailRe : Regex Char :=
  .cat (.plus (.set isAtomChar)) <| .cat (.star (.cat (.char '.') (.plus (.set isAtomChar)))) <| .cat (.char '@') <|
    .alt (.lit "localhost".toList)
      (.cat (.plus (.cat labelRe (.char '.'))) (.times (.set Char.isAlpha) 61 2))

/-- The lookahead of `EMAIL_RE`: 1 to 64 characters before the first `@`. -/
def emailLocalLength (s : Str) : Bool :=
  let localPart := s.takeWhile (· ≠ '@')
  0 < localPart.length && localPart.length ≤ 64 && localPart.length < s.length

/-- `EMAIL_MAX`. -/
def emailMax : Nat := 254

def hasControlChars (s : Str) : Bool := s.any fun c => c.toNat < 0x20 || c = '\u007f'

/-- `validate_name`. -/
def validateName (value : Str) : Except UsersApiError Str :=
  if value = [] then .error (badRequest "name is required".toList)
  else if nameMax < value.length then .error (badRequest "name must be at most 64 characters".toList)
  else if Regex.acceptsLine '\n' nameRe value then .ok value
  else .error (badRequest ("invalid name: must start with a letter or digit and contain only " ++
    "letters, digits, '.', '_', '@' or '-'").toList)

/-- `validate_email`. -/
def validateEmail (value : Str) : Except UsersApiError Str :=
  if value = [] then .error (badRequest "email is required".toList)
  else if emailMax < value.length ∨ hasControlChars value ∨ ¬ (emailLocalLength value ∧ emailRe.accepts value) then
    .error (badRequest "invalid email".toList)
  else .ok value

/-- `validate_text`. -/
def validateText (value : Option Str) (field : Str) (maxLen : Nat) : Except UsersApiError Unit :=
  match value with
  | none => .ok ()
  | some v =>
    if hasControlChars v then .error (badRequest (field ++ " must not contain control characters".toList))
    else if maxLen < v.length then
      .error (badRequest (field ++ " must be at most ".toList ++ (toString maxLen).toList ++ " characters".toList))
    else .ok ()

/-- `validate_data`, of data whose JSON has the given number of bytes. -/
def validateData (bytes : Option Nat) : Except UsersApiError Unit :=
  match bytes with
  | none => .ok ()
  | some n => if 16384 < n then .error (badRequest "data must be at most 16384 bytes".toList) else .ok ()

theorem validateName_ok {value name : Str} (h : validateName value = .ok name) :
    name = value ∧ value ≠ [] ∧ Regex.acceptsLine '\n' nameRe value = true := by
  unfold validateName at h
  split at h
  · cases h
  · split at h
    · cases h
    · split at h
      · exact ⟨(Except.ok.inj h).symm, ‹_›, ‹_›⟩
      · cases h

theorem validateEmail_ok {value email : Str} (h : validateEmail value = .ok email) :
    email = value ∧ emailLocalLength value = true ∧ emailRe.accepts value = true := by
  unfold validateEmail at h
  split at h
  · cases h
  · split at h
    · cases h
    · rename_i hok
      have hboth := not_not.1 fun hno => hok (.inr (.inr hno))
      exact ⟨(Except.ok.inj h).symm, hboth⟩

example : validateEmail "root@localhost".toList = .ok "root@localhost".toList := by decide +kernel

end CliServer
