import CliServer.Lib.Json
import CliServer.Lib.Substitution
import CliServer.Text

/-!
# Redaction of log messages

The patterns of the server's `redact` and of the admin plugin's, as they are written.  All ignore case, so the letters
`i`, `k` and `s` stand for the four other characters that Python folds to them as well.  What counts as a letter or a
digit beyond ASCII, for `\w` and `\b`, is a parameter.
-/

namespace CliServer

open Json (CodePoint Text ofChar ofChars)
open Substitution

namespace Redaction

/-- The lower case of ASCII, and of the four other characters that are taken for `i`, `s` and `k`. -/
def foldCase (n : Nat) : Nat :=
  if 0x41 ≤ n ∧ n ≤ 0x5A then n + 0x20
  else if n = 0x130 ∨ n = 0x131 then 0x69
  else if n = 0x17F then 0x73
  else if n = 0x212A then 0x6B
  else n

/-- A character of a pattern, with case ignored. -/
def letter (c : Char) (x : CodePoint) : Bool := foldCase x.val = foldCase c.toNat

/-- A text of a pattern. -/
def lit (s : List Char) : Pattern CodePoint := Pattern.ones (s.map letter)

/-- `\s`. -/
def space (c : CodePoint) : Bool := isSpace (Char.ofNat c.val)

def isAlnum (n : Nat) : Bool := (0x30 ≤ n && n ≤ 0x39) || (0x41 ≤ n && n ≤ 0x5A) || (0x61 ≤ n && n ≤ 0x7A)

/-- `\w`; `other` says which characters beyond ASCII are letters or digits. -/
def wordChar (other : CodePoint → Bool) (c : CodePoint) : Bool :=
  if c.val < 0x80 then isAlnum c.val || c.val = 0x5F else other c

/-- `[A-Za-z0-9._~+/=%-]`. -/
def tokenChar (c : CodePoint) : Bool :=
  isAlnum (foldCase c.val) || c ∈ ofChars ['.', '_', '~', '+', '/', '=', '%', '-']

def redacted : Text := ofChars ['[', 'r', 'e', 'd', 'a', 'c', 't', 'e', 'd', ']']

/-- `(bearer(?:\s+|%20))[A-Za-z0-9._~+/=%-]+`. -/
def bearer : Rule CodePoint where
  lead := .empty
  group := .seq (lit ['b', 'e', 'a', 'r', 'e', 'r']) (.alt (.plus space) (lit ['%', '2', '0']))
  mid := .empty
  tail := .plus tokenChar
  left := []
  right := redacted

def token : Pattern CodePoint := lit ['t', 'o', 'k', 'e', 'n']
def ticket : Pattern CodePoint := lit ['t', 'i', 'c', 'k', 'e', 't']
def password : Pattern CodePoint := lit ['p', 'a', 's', 's', 'w', 'o', 'r', 'd']
def secret : Pattern CodePoint := lit ['s', 'e', 'c', 'r', 'e', 't']
def cmd : Pattern CodePoint := lit ['c', 'm', 'd']

/-- `[^&\s\"']`. -/
def queryChar (c : CodePoint) : Bool := !(c ∈ ofChars ['&', '"', '\''] || space c)

/-- `\b(\w*(?:token|ticket|password|secret)|cmd)=([^&\s\"']+)`. -/
def queryValue (other : CodePoint → Bool) : Rule CodePoint where
  lead := .boundary (wordChar other)
  group := .alt (.seq (.many (wordChar other)) (.oneOf [token, ticket, password] secret)) cmd
  mid := lit ['=']
  tail := .plus queryChar
  left := []
  right := ofChar '=' :: redacted

/-- `[^&\s]`. -/
def adminChar (c : CodePoint) : Bool := !(c = ofChar '&' || space c)

/-- `\b(token|ticket|password|secret|cmd)=([^&\s]+)`. -/
def adminValue (other : CodePoint → Bool) : Rule CodePoint where
  lead := .boundary (wordChar other)
  group := .oneOf [token, ticket, password, secret] cmd
  mid := lit ['=']
  tail := .plus adminChar
  left := []
  right := ofChar '=' :: redacted

def quote : CodePoint := ofChar '"'

/-- The keys of the JSON pattern. -/
def jsonKeys : List (List Char) :=
  [['t', 'o', 'k', 'e', 'n'], ['t', 'i', 'c', 'k', 'e', 't'], ['p', 'a', 's', 's', 'w', 'o', 'r', 'd'],
    ['c', 'u', 'r', 'r', 'e', 'n', 't', 'P', 'a', 's', 's', 'w', 'o', 'r', 'd'],
    ['n', 'e', 'w', 'P', 'a', 's', 's', 'w', 'o', 'r', 'd']]

/-- `"(token|ticket|password|currentPassword|newPassword)"\s*:\s*"[^"]*"`. -/
def jsonValue : Rule CodePoint where
  lead := lit ['"']
  group := .oneOf [token, ticket, password,
    lit ['c', 'u', 'r', 'r', 'e', 'n', 't', 'P', 'a', 's', 's', 'w', 'o', 'r', 'd']]
    (lit ['n', 'e', 'w', 'P', 'a', 's', 's', 'w', 'o', 'r', 'd'])
  mid := .seq (lit ['"']) (.seq (.many space) (.seq (lit [':']) (.seq (.many space) (lit ['"']))))
  tail := .seq (.many fun c => c ≠ quote) (lit ['"'])
  left := [quote]
  right := ofChars ['"', ':', ' ', '"'] ++ (redacted ++ [quote])

/-- The server's `redact`. -/
def redact (other : CodePoint → Bool) (message : Text) : Text :=
  jsonValue.sub ((queryValue other).sub (bearer.sub message))

/-- `redact` of the admin plugin's log buffer. -/
def adminRedact (other : CodePoint → Bool) (message : Text) : Text :=
  jsonValue.sub ((adminValue other).sub (bearer.sub message))

end Redaction

end CliServer
