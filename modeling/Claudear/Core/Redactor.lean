import Claudear.Core.Secrets
import Claudear.Text.Groups

/-!
# Credential redaction

A `Redactor` masks the secrets it was built with, longest first, and then credentials
of known shapes: one pass for each pattern, the values of credential headers, and last
the known prefixes. In the patterns `(?i)`, `\b` and `\s` are about ASCII. What base64
decodes to, where that is UTF-8, is a parameter.
-/

namespace Claudear.Core

open Claudear.Text Claudear.Text.Pat

def MINIMUM_SECRET_LENGTH : Nat := 8

def CREDENTIAL_HEADERS : List String :=
  ["authorization", "proxy-authorization", "cookie", "set-cookie", "x-api-key", "x-appwrite-key",
    "x-appwrite-dev-key", "x-appwrite-jwt", "x-appwrite-session", "x-fallback-cookies"]

def SECRET_NAME_MARKERS : List String :=
  ["TOKEN", "SECRET", "PASSWORD", "PASSWD", "API_KEY", "APIKEY", "PRIVATE_KEY", "PRIVATEKEY", "AUTH", "JWT", "COOKIE"]

def SECRET_NAME_SUFFIXES : List String := ["_KEY", "_PASS"]

def SECRET_NAME_PREFIXES : List String := ["A_SESSION"]

def NON_SECRET_NAME_SEGMENTS : List String := ["AUTHOR", "AUTHORS"]

def CREDENTIAL_LABELS : List String := ["KEY", "KEYS"]

def MINIMUM_GENERATED_LENGTH : Nat := 20

def APPWRITE_HEX_KEY_TYPES : List String := ["standard", "organization", "account"]

def APPWRITE_JWT_KEY_TYPES : List String := ["ephemeral", "dynamic"]

def MINIMUM_APPWRITE_KEY_SECRET_LENGTH : Nat := 32

def TOKEN_SYMBOLS : String := "_.~+/="

def USER_PASSWORD_SEPARATOR : Char := ':'

def TABLE_CELL_BORDER : Char := '|'

def EMPHASIS : Char := '*'

/-! ## Classes -/

def inSet (s : String) (c : Char) : Bool := c ∈ s.toList

/-- A letter or digit, or one of `s`. -/
def alnumOr (s : String) (c : Char) : Bool := c.isAlphanum || inSet s c

def alphaOr (s : String) (c : Char) : Bool := c.isAlpha || inSet s c

/-- None of `s`. -/
def noneOf (s : String) (c : Char) : Bool := !inSet s c

/-- `[ \t]` -/
def blank : Char → Bool := inSet " \t"

/-- `\s` -/
def space : Char → Bool := inSet " \t\n\x0b\x0c\r"

/-- A quote, a backtick among them. -/
def quote : Char → Bool := inSet "\"'`"

def oneOf (names : List String) : Pat := alts (names.map lit)

/-- The characters of a token and `=*`, of which the last before the `=*` is no full stop. -/
def token : Pat := seqs [many (alnumOr "._~+/-"), one (alnumOr "_~+/-"), many (· = '=')]

/-- `(?:[^"\\\r\n]|\\.)` -/
def stringChar : Pat := alt (one (noneOf "\"\\\r\n")) (seq (lit "\\") (one (· ≠ '\n')))

/-! ## Patterns -/

inductive Group where
  | secret | name | flag | lead | openQuote
  deriving DecidableEq

/-- `-----BEGIN [A-Z0-9 ]+-----`, or its `END`. -/
def pemLine (word : String) : Pat :=
  seqs [lit "-----", lit word, lit " ", atLeast 1 fun c => c.isUpper || c.isDigit || c = ' ', lit "-----"]

/-- `(?s)-----BEGIN [A-Z0-9 ]+-----.*?(?:-----END [A-Z0-9 ]+-----|\z)`: the end of the text is
only reached where there is no `END`. -/
def PEM_BLOCK : Grouped Group where
  alternatives :=
    [[(none, pemLine "BEGIN"), (none, star false (one fun _ => true)), (none, pemLine "END")],
      [(none, pemLine "BEGIN"), (none, many fun _ => true)]]

def CREDENTIAL_HEADER : Grouped Group where
  alternatives :=
    [[(some .lead, opt (one quote)), (none, boundary), (none, alts (CREDENTIAL_HEADERS.map ilit)),
      (none, many fun c => quote c || c = EMPHASIS), (none, many blank),
      (none, one fun c => c = ':' || c = TABLE_CELL_BORDER), (none, many fun c => blank c || c = EMPHASIS),
      (some .openQuote, opt (one quote))]]

def BEARER_CREDENTIALS : Grouped Group where
  alternatives := [[(none, boundary), (none, ilit "bearer"), (none, atLeast 1 blank), (some .secret, token)]]

/-- `(?i)\bbasic[ \t]+(?<secret>[A-Za-z0-9+/]+=*)` -/
def BASIC_CREDENTIALS : Grouped Group where
  alternatives :=
    [[(none, boundary), (none, ilit "basic"), (none, atLeast 1 blank),
      (some .secret, seq (atLeast 1 (alnumOr "+/")) (many (· = '=')))]]

/-- `(?i)\b[a-z][a-z0-9+.-]*://[^\s:/@]*:(?<secret>[^\s/@]+)@` -/
def URL_PASSWORD : Grouped Group where
  alternatives :=
    [[(none, boundary), (none, one Char.isAlpha), (none, many (alnumOr "+.-")), (none, lit "://"),
      (none, many fun c => !space c && noneOf ":/@" c), (none, lit ":"),
      (some .secret, atLeast 1 fun c => !space c && noneOf "/@" c), (none, lit "@")]]

/-- `\b(?<name>[A-Za-z_][A-Za-z0-9_.-]*)=(?<secret>"[^"\r\n]+"|'[^'\r\n]+'|[^\s"'&;,]+)` -/
def VARIABLE_ASSIGNMENT : Grouped Group where
  alternatives :=
    [[(none, boundary), (some .name, seq (one (alphaOr "_")) (many (alnumOr "_.-"))), (none, lit "="),
      (some .secret, alts [seqs [lit "\"", atLeast 1 (noneOf "\"\r\n"), lit "\""],
        seqs [lit "'", atLeast 1 (noneOf "'\r\n"), lit "'"], atLeast 1 fun c => !space c && noneOf "\"'&;," c])]]

/-- `"(?<name>[A-Za-z_$][A-Za-z0-9_.$-]*)"[ \t]*:[ \t]*"(?<secret>(?:[^"\\\r\n]|\\.)+)"` -/
def JSON_FIELD : Grouped Group where
  alternatives :=
    [[(none, lit "\""), (some .name, seq (one (alphaOr "_$")) (many (alnumOr "_.$-"))), (none, lit "\""),
      (none, many blank), (none, lit ":"), (none, many blank), (none, lit "\""),
      (some .secret, seq stringChar (star true stringChar)), (none, lit "\"")]]

/-- `"{key}"\s*:\s*"(?<group>(?:[^"\\\r\n]|\\.)+)"` -/
def jsonStringField (key : String) (group : Group) : List (Option Group × Pat) :=
  [(none, seqs [lit "\"", lit key, lit "\"", many space, lit ":", many space, lit "\""]),
    (some group, seq stringChar (star true stringChar)), (none, lit "\"")]

/-- `(?:[^{}"]|"(?:[^"\\\r\n]|\\.)*")*?` -/
def SAME_OBJECT_GAP : Pat :=
  star false (alt (one fun c => c ≠ '\x7b' && c ≠ '\x7d' && c ≠ '"') (seqs [lit "\"", star true stringChar, lit "\""]))

def NAME_THEN_VALUE : Grouped Group where
  alternatives := [jsonStringField "name" .name ++ (none, SAME_OBJECT_GAP) :: jsonStringField "value" .secret]

def VALUE_THEN_NAME : Grouped Group where
  alternatives := [jsonStringField "value" .secret ++ (none, SAME_OBJECT_GAP) :: jsonStringField "name" .name]

/-- A flag and its value, or a label, a separator and the value. -/
def LABELLED_VALUE : Grouped Group where
  alternatives :=
    [[(none, lit "--"), (some .flag, seq (one Char.isAlpha) (many (alnumOr "_-"))), (none, atLeast 1 blank),
      (none, many fun c => blank c || quote c || c = EMPHASIS), (some .secret, token)],
     [(none, boundary), (some .name, seq (one Char.isAlpha) (many (alnumOr "_-"))),
      (none, many fun c => quote c || c = EMPHASIS), (none, many blank),
      (none, one fun c => c = ':' || c = '=' || c = TABLE_CELL_BORDER),
      (none, many fun c => blank c || quote c || c = EMPHASIS), (some .secret, token)]]

/-- `\b(?<secret>(?:{hex types})_[A-Za-z0-9]{32,}|(?:{JWT types})_eyJ[A-Za-z0-9_.-]*[A-Za-z0-9_-])` -/
def APPWRITE_KEY : Grouped Group where
  alternatives :=
    [[(none, boundary),
      (some .secret, alt
        (seqs [oneOf APPWRITE_HEX_KEY_TYPES, lit "_", atLeast MINIMUM_APPWRITE_KEY_SECRET_LENGTH Char.isAlphanum])
        (seqs [oneOf APPWRITE_JWT_KEY_TYPES, lit "_eyJ", many (alnumOr "_.-"), one (alnumOr "_-")]))]]

/-- `(?:\b|_)(?<secret>eyJ[A-Za-z0-9_-]+\.eyJ[A-Za-z0-9_-]+\.[A-Za-z0-9_-]*)` -/
def JWT : Grouped Group where
  alternatives :=
    [[(none, alt boundary (lit "_")),
      (some .secret, seqs [lit "eyJ", atLeast 1 (alnumOr "_-"), lit ".eyJ", atLeast 1 (alnumOr "_-"), lit ".",
        many (alnumOr "_-")])]]

/-! ## What is a credential -/

def isSecretName (name : List Char) : Bool :=
  let name := name.map fun c => if c.toUpper = '-' || c.toUpper = '.' then '_' else c.toUpper
  let segments := (name.splitOn '_').filter fun segment => !(NON_SECRET_NAME_SEGMENTS.map String.toList).contains segment
  let name := ['_'].intercalate segments
  (SECRET_NAME_MARKERS.any fun marker => marker.toList <:+: name) ||
    (SECRET_NAME_SUFFIXES.any fun suffix => suffix.toList <:+ name) ||
    SECRET_NAME_PREFIXES.any fun segment =>
      segment.toList <+: name && (name.drop segment.length).head?.all fun c => c = '_'

def isCredentialLabel (label : List Char) : Bool :=
  isSecretName label || CREDENTIAL_LABELS.any fun name => label.map Char.toUpper = name.toList

def looksLikeCredential (token : List Char) : Bool :=
  MINIMUM_SECRET_LENGTH ≤ token.length &&
    ((token.any fun c => c.isDigit || inSet TOKEN_SYMBOLS c) || (token.drop 1).any Char.isUpper)

def looksGenerated (token : List Char) : Bool :=
  MINIMUM_GENERATED_LENGTH ≤ token.length && token.any Char.isDigit && token.any Char.isAlpha

/-- `char::is_control` -/
def isControl (c : Char) : Bool := c.toNat < 32 || 127 ≤ c.toNat && c.toNat < 160

section
variable (decode : List Char → Option (List Char))

def encodesUserPassword (token : List Char) : Bool :=
  MINIMUM_SECRET_LENGTH ≤ token.length &&
    (decode token).any fun pair => pair.contains USER_PASSWORD_SEPARATOR && !pair.any isControl

def isBearerCredential (_ : Captures Group) (token : List Char) : Bool := MINIMUM_SECRET_LENGTH ≤ token.length

def isBasicCredential (_ : Captures Group) (token : List Char) : Bool :=
  looksLikeCredential token || encodesUserPassword decode token

def hasSecretName (assignment : Captures Group) (_ : List Char) : Bool := (assignment.name .name).any isSecretName

def isLabelledCredential (value : Captures Group) (token : List Char) : Bool :=
  ((value.name .name).or (value.name .flag)).any isCredentialLabel && looksGenerated token

/-! ## Passes -/

def redactMatches (text : List Char) (pattern : Grouped Group) (isSecret : Captures Group → List Char → Bool) :
    List Char :=
  pattern.replaceAll (fun captures =>
    if (captures.name .secret).any (isSecret captures) then captures.swapping .secret REDACTED else captures.whole) text

/-- The loop over the headers. `cursor` is where what was not copied yet begins. -/
def headersFrom (text : List Char) : Nat → List (Nat × Captures Group) → List Char
  | cursor, [] => text.drop cursor
  | cursor, (pos, header) :: rest =>
    if pos < cursor then headersFrom text cursor rest
    else
      let stop := pos + header.whole.length
      let first (group : Group) := (header.name group).bind List.head?
      let terminator := ((first .openQuote).or (first .lead)).getD TABLE_CELL_BORDER
      let value := (text.drop stop).takeWhile fun c => !(c = terminator || c = '\r' || c = '\n')
      let length := (value.rdropWhile fun c => isWhitespace c || c = EMPHASIS).length
      if length = 0 then headersFrom text cursor rest
      else (text.drop cursor).take (stop - cursor) ++ (REDACTED ++ headersFrom text (stop + length) rest)

def redactCredentialHeaders (text : List Char) : List Char := headersFrom text 0 (CREDENTIAL_HEADER.capturesIter text)

end

/-! ## The redactor -/

structure Redactor where
  secrets : List String

namespace Redactor

/-- `Vec::dedup` -/
def dedup : List String → List String
  | a :: b :: l => if a = b then dedup (b :: l) else a :: dedup (b :: l)
  | l => l

/-- Longer secrets first, in bytes, and equally long ones in their order. -/
def longerFirst (left right : String) : Bool :=
  right.utf8ByteSize < left.utf8ByteSize || right.utf8ByteSize = left.utf8ByteSize && left ≤ right

def withSecrets (r : Redactor) (secrets : List String) : Redactor where
  secrets :=
    dedup ((r.secrets ++ (secrets.map trim).filter fun secret => MINIMUM_SECRET_LENGTH ≤ secret.length).mergeSort
      longerFirst)

def new (secrets : List String) : Redactor := withSecrets ⟨[]⟩ secrets

def redactKnown (r : Redactor) (text : List Char) : List Char :=
  r.secrets.foldl (fun text secret =>
    if secret.toList <:+: text then replaceText secret.toList REDACTED text else text) text

/-- The passes between the known secrets and the known prefixes. -/
def redactShapes (decode : List Char → Option (List Char)) (text : List Char) : List Char :=
  let text := PEM_BLOCK.replaceAll (fun _ => REDACTED) text
  let text := redactCredentialHeaders text
  let text := redactMatches text BEARER_CREDENTIALS isBearerCredential
  let text := redactMatches text BASIC_CREDENTIALS (isBasicCredential decode)
  let text := redactMatches text URL_PASSWORD fun _ _ => true
  let text := redactMatches text VARIABLE_ASSIGNMENT hasSecretName
  let text := redactMatches text JSON_FIELD hasSecretName
  let text := redactMatches text NAME_THEN_VALUE hasSecretName
  let text := redactMatches text VALUE_THEN_NAME hasSecretName
  let text := redactMatches text APPWRITE_KEY fun _ key => looksGenerated key
  let text := redactMatches text LABELLED_VALUE isLabelledCredential
  redactMatches text JWT fun _ _ => true

/-- With at most so many searches for a known prefix. -/
def redact (r : Redactor) (decode : List Char → Option (List Char)) (fuel : Nat) (text : List Char) :
    Option (List Char) :=
  redactSecrets fuel (redactShapes decode (r.redactKnown text))

end Redactor

end Claudear.Core
