import Claudear.Machine.Run
import Claudear.Text.Redaction

/-!
# Scrubbing

`scrub_internal` runs its passes over the text one after the other, each once:
the secret patterns, the absolute paths, the encoded runs. `(?i)` and `\b` are
about ASCII.
-/

namespace Claudear.Engine

open Claudear.Machine Claudear.Text Claudear.Text.Pat

def REDACTED : List Char := ['[', 'r', 'e', 'd', 'a', 'c', 't', 'e', 'd', ']']

def MIN_ENCODED_SECRET_CHARS : Nat := 33

/-! ## Classes -/

def inSet (s : String) (c : Char) : Bool := c ∈ s.toList

/-- A letter or digit, or one of `s`. -/
def alnumOr (s : String) (c : Char) : Bool := c.isAlphanum || inSet s c

/-- `[A-Z0-9 ]` -/
def labelChar (c : Char) : Bool := c.isUpper || c.isDigit || c = ' '

/-- `\s`, of which `\S` is the rest. -/
def isSpace (c : Char) : Bool := inSet " \t\n\x0b\x0c\r" c

def nonSpace (c : Char) : Bool := !isSpace c

def hexDigit (c : Char) : Bool := c.isDigit || inSet "abcdefABCDEF" c

/-- `(?::[0-9]+)?` -/
def port : Pat := opt (seqs [lit ":", atLeast 1 Char.isDigit])

/-- `[0-9]{1,3}` -/
def octet : Pat := seq (one Char.isDigit) (upTo Char.isDigit 2)

/-! ## Secret patterns -/

/-- `-----BEGIN [A-Z0-9 ]+-----` -/
def pemHeader : Pat := seqs [lit "-----BEGIN ", atLeast 1 labelChar, lit "-----"]

/-- `(?s)-----BEGIN [A-Z0-9 ]+-----.*?-----END [A-Z0-9 ]+-----` -/
def pemBlock : Pat :=
  seqs [pemHeader, star false (one fun _ => true), lit "-----END ", atLeast 1 labelChar, lit "-----"]

/-- `(?s)-----BEGIN [A-Z0-9 ]+-----.*` -/
def pemOpen : Pat := seq pemHeader (many fun _ => true)

/-- `\b(?:gh[pousr]_[A-Za-z0-9]{16,}|github_pat_[A-Za-z0-9_]{16,})` -/
def githubToken : Pat :=
  seqs [boundary, alts [seqs [lit "gh", one (inSet "pousr"), lit "_", atLeast 16 Char.isAlphanum],
    seqs [lit "github_pat_", atLeast 16 (alnumOr "_")]]]

/-- `\bsk[-_][A-Za-z0-9_-]{16,}` -/
def skToken : Pat := seqs [boundary, lit "sk", one (inSet "-_"), atLeast 16 (alnumOr "_-")]

/-- `\bxox[abposr]-[A-Za-z0-9-]{10,}` -/
def slackToken : Pat := seqs [boundary, lit "xox", one (inSet "abposr"), lit "-", atLeast 10 (alnumOr "-")]

/-- `\b(?:AKIA|ASIA)[0-9A-Z]{16}\b` -/
def awsKey : Pat :=
  seqs [boundary, alts [lit "AKIA", lit "ASIA"], times 16 fun c => c.isDigit || c.isUpper, boundary]

/-- `\beyJ[A-Za-z0-9_-]{8,}\.[A-Za-z0-9_-]{8,}\.[A-Za-z0-9_-]{8,}` -/
def jwt : Pat :=
  seqs [boundary, lit "eyJ", atLeast 8 (alnumOr "_-"), lit ".", atLeast 8 (alnumOr "_-"), lit ".",
    atLeast 8 (alnumOr "_-")]

/-- `\b[A-Za-z0-9._%+-]+@[A-Za-z0-9.-]+\.[A-Za-z]{2,}\b` -/
def email : Pat :=
  seqs [boundary, atLeast 1 (alnumOr "._%+-"), lit "@", atLeast 1 (alnumOr ".-"), lit ".",
    atLeast 2 Char.isAlpha, boundary]

/-- `(?i)\bhttps?://[A-Za-z0-9.-]*helpscout\.net` -/
def helpscoutHost : Pat :=
  seqs [boundary, ilit "http", opt (ilit "s"), lit "://", many (alnumOr ".-"), ilit "helpscout.net"]

/-- `(?i)\bhttps?://[A-Za-z0-9.-]*helpscout\.net\S*` -/
def helpscoutUrl : Pat := seq helpscoutHost (many nonSpace)

/-- `(?i)\bhelp ?scout\b` -/
def helpscout : Pat := seqs [boundary, ilit "help", opt (lit " "), ilit "scout", boundary]

/-- `\bHS-[0-9]+\b` -/
def ticket : Pat := seqs [boundary, lit "HS-", atLeast 1 Char.isDigit, boundary]

/-- `(?i)\bappwrite-labs(?:/[A-Za-z0-9._-]+)*` -/
def privateRepo : Pat :=
  seqs [boundary, ilit "appwrite-labs", star true (seqs [lit "/", atLeast 1 (alnumOr "._-")])]

/-- `(?i)\blocalhost\b(?::[0-9]+)?` -/
def localhost : Pat := seqs [boundary, ilit "localhost", boundary, port]

/-- `(?i)\b(?:[A-Za-z0-9-]+\.)+(?:internal|svc|local)\b(?::[0-9]+)?` -/
def internalHost : Pat :=
  let label := seqs [atLeast 1 (alnumOr "-"), lit "."]
  seqs [boundary, label, star true label, alts [ilit "internal", ilit "svc", ilit "local"], boundary, port]

/-- `\b(?:10\.[0-9]{1,3}\.[0-9]{1,3}\.[0-9]{1,3}|172\.(?:1[6-9]|2[0-9]|3[01])\.[0-9]{1,3}\.[0-9]{1,3}|192\.168\.[0-9]{1,3}\.[0-9]{1,3}|127\.[0-9]{1,3}\.[0-9]{1,3}\.[0-9]{1,3}|169\.254\.[0-9]{1,3}\.[0-9]{1,3}|0\.0\.0\.0)\b(?::[0-9]+)?` -/
def internalAddress : Pat :=
  seqs [boundary,
    alts [
      seqs [lit "10.", octet, lit ".", octet, lit ".", octet],
      seqs [lit "172.", alts [seqs [lit "1", one (inSet "6789")], seqs [lit "2", one Char.isDigit],
        seqs [lit "3", one (inSet "01")]], lit ".", octet, lit ".", octet],
      seqs [lit "192.168.", octet, lit ".", octet],
      seqs [lit "127.", octet, lit ".", octet, lit ".", octet],
      seqs [lit "169.254.", octet, lit ".", octet],
      lit "0.0.0.0"],
    boundary, port]

/-- `\[?::1\]?(?::[0-9]+)?\b` -/
def loopback6 : Pat := seqs [opt (lit "["), lit "::1", opt (lit "]"), port, boundary]

/-- `(?i)\bfe80::[0-9a-f:%]*` -/
def linkLocal6 : Pat := seqs [boundary, ilit "fe80::", many fun c => hexDigit c || inSet ":%" c]

/-- `\b[A-Za-z]:\\` -/
def drive : Pat := seqs [boundary, one Char.isAlpha, lit ":\\"]

/-- `\b[A-Za-z]:\\\S+` -/
def windowsPath : Pat := seq drive (atLeast 1 nonSpace)

/-- `\b[0-9a-fA-F]{33,}\b` -/
def longHex : Pat := seqs [boundary, atLeast 33 hexDigit, boundary]

def SECRET_PATTERNS : List Pass :=
  [{ body := pemBlock }, { body := pemOpen }, { body := githubToken }, { body := skToken },
    { body := slackToken }, { body := awsKey }, { body := jwt }, { body := email },
    { body := helpscoutUrl }, { body := helpscout }, { body := ticket }, { body := privateRepo },
    { body := localhost }, { body := internalHost }, { body := internalAddress }, { body := loopback6 },
    { body := linkLocal6 }, { body := windowsPath }, { body := longHex }]

/-! ## Paths and encoded runs -/

/-- No letter or digit, and none of `.`, `_`, `/` and `-`. -/
def beforePath (c : Char) : Bool := !alnumOr "._/-" c

/-- `(?:home|…|data)\b(?:/[A-Za-z0-9._@+-]+)*` after a slash, and maybe a slash behind it. -/
def absolutePath : Pat :=
  seqs [lit "/",
    alts [lit "home", lit "Users", lit "root", lit "usr", lit "var", lit "etc", lit "opt", lit "tmp",
      lit "private", lit "srv", lit "mnt", lit "app", lit "workspace", lit "proc", lit "run",
      lit "Library", lit "Volumes", lit "storage", lit "data"],
    boundary, star true (seqs [lit "/", atLeast 1 (alnumOr "._@+-")]), opt (lit "/")]

/-- The first group of the pattern, `^` or a character that stands before a path, is put back. -/
def ABSOLUTE_PATH : Pass := { lead := alt Pat.start (one beforePath), body := absolutePath }

def encodedChar (c : Char) : Bool := alnumOr "+/_-" c

/-- `[A-Za-z0-9+/_-]{33,}={0,2}` -/
def encodedRun : Pat := seq (atLeast 33 encodedChar) (upTo (· = '=') 2)

def looksEncoded (run : List Char) : Bool :=
  MIN_ENCODED_SECRET_CHARS ≤ run.length && run.any Char.isDigit && run.any Char.isUpper && run.any Char.isLower

def ENCODED_RUN : Pass := { body := encodedRun, redacts := looksEncoded }

def passes : List Pass := SECRET_PATTERNS ++ [ABSOLUTE_PATH, ENCODED_RUN]

def scrubPass (text : List Char) (p : Pass) : List Char := p.replaceAll REDACTED text

def scrub (text : List Char) : List Char := run scrubPass text passes

def scrubInternal (text : String) : String := String.ofList (scrub text.toList)

end Claudear.Engine
