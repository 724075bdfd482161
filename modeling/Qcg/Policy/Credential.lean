import Qcg.Contract.Inputs
import Qcg.Policy.HttpUrl

/-!
# Credential redaction of names, URLs and free texts

Which names denote credentials, and what is left of a URL or a text when its credentials are
taken out. A URL loses its userinfo; the values of its query, of the `;` parameters of its path
and of its fragment become a placeholder. A free text loses the values of its URLs and what
stands after a credential-like name and `=` or `:`.
-/

namespace Qcg

namespace Policy

open Splitting
open Splitting (isWhitespace)

def redactedText : List Char :=
  "[REDACTED]".toList

def credentialMarkers : List String :=
  ["APIKEY", "APITOKEN", "AUTH", "AUTHORIZATION", "BEARER", "COOKIE", "CREDENTIAL",
    "CREDENTIALS", "KEY", "PASSWORD", "PASSWD", "SECRET", "TOKEN"]

def denotesCredential (token : List Char) : Bool :=
  credentialMarkers.any fun marker =>
    let suffix := token.drop marker.length
    token = marker.toList ||
      (marker.toList.isPrefixOf token && !suffix.isEmpty && suffix.all Char.isDigit)

def credentialLikeName (name : List Char) : Bool :=
  ((name.splitOnP fun c => !c.isAlphanum).map fun token => token.map Char.toUpper).any
    denotesCredential

/-- A value after the first `=` becomes the placeholder. -/
def redactValue (pair : List Char) : List Char :=
  match splitOnce '=' pair with
  | some (key, _) => key ++ '=' :: redactedText
  | none => pair

def isSegmentEnd (c : Char) : Bool :=
  c = '/' || c = '?'

def redactMatrixFrom : Nat → List Char → List Char
  | 0, rest => rest
  | fuel + 1, rest =>
    match splitOnce ';' rest with
    | none => rest
    | some (before, after) =>
      let segment := after.takeWhile fun c => !isSegmentEnd c
      let rest := after.dropWhile fun c => !isSegmentEnd c
      before ++ ';' :: (redactValue segment ++ redactMatrixFrom fuel rest)

/-- The values of `;` parameters become the placeholder. Every turn of the loop takes a `;`, so
the length of the text bounds the number of turns. -/
def redactMatrixParams (url : List Char) : List Char :=
  redactMatrixFrom url.length url

def stripUrlUserinfo (url : List Char) : List Char :=
  let (scheme, rest) :=
    match findText "://".toList url with
    | some (scheme, rest) => (scheme ++ "://".toList, rest)
    | none => ([], url)
  let authority := rest.takeWhile fun c => c ≠ '/'
  let path := rest.dropWhile fun c => c ≠ '/'
  match splitLast '@' authority with
  | some (_, host) => scheme ++ host ++ path
  | none => url

/-- A fragment piece keeps its key; a bare token is a value. -/
def redactFragmentPiece (pair : List Char) : List Char :=
  if pair = [] then []
  else
    match splitOnce '=' pair with
    | some (key, _) => key ++ '=' :: redactedText
    | none => redactedText

def redactUrlFragment : Option (List Char) → List Char
  | none => []
  | some fragment => '#' :: mapPieces isPairSeparator redactFragmentPiece fragment

def redactAllQueryValues (url : List Char) : List Char :=
  let (beforeFragment, fragment) :=
    match splitOnce '#' url with
    | some (base, fragment) => (base, some fragment)
    | none => (url, none)
  let (base, query) := (splitOnce '?' beforeFragment).getD (beforeFragment, [])
  redactMatrixParams (stripUrlUserinfo base) ++
    (if query = [] then [] else '?' :: mapPieces isPairSeparator redactValue query) ++
    redactUrlFragment fragment

/-- Letters that wrap a token. -/
def isWrapper (c : Char) : Bool :=
  c = '"' || c = '\x27' || c = '\x60' || c = '<' || c = '>' || c = '|'

def isTokenEnd (c : Char) : Bool :=
  isWhitespace c || isWrapper c

def isTrailingPunctuation (c : Char) : Bool :=
  c = '.' || c = ',' || c = ';' || c = ':' || c = '!' || c = ')' || c = ']'

def byteLength (text : List Char) : Nat :=
  (text.map Char.utf8Size).sum

/-- The number of trailing punctuation letters that are taken off a token of over eight bytes. -/
def trailing : Nat → List Char → Nat
  | 0, _ => 0
  | fuel + 1, token =>
    if token.getLast?.any isTrailingPunctuation && decide (8 < byteLength token) then
      trailing fuel token.dropLast + 1
    else 0

/-- The text before the first `http://` or `https://`, and the text from there on. -/
def findUrl (text : List Char) : Option (List Char × List Char) :=
  let http := (findText "http://".toList text).map Prod.fst
  let https := (findText "https://".toList text).map Prod.fst
  let before :=
    match http, https with
    | some a, some b => some (if a.length ≤ b.length then a else b)
    | some a, none => some a
    | none, some b => some b
    | none, none => none
  before.map fun before => (before, text.drop before.length)

def redactUrlsFrom : Nat → List Char → List Char
  | 0, rest => rest
  | fuel + 1, rest =>
    match findUrl rest with
    | none => rest
    | some (before, rest) =>
      let wrapped := rest.takeWhile fun c => !isTokenEnd c
      let token := wrapped.take (wrapped.length - trailing wrapped.length wrapped)
      before ++ redactAllQueryValues token ++ redactUrlsFrom fuel (rest.drop token.length)

def redactUrlsInText (text : List Char) : List Char :=
  redactUrlsFrom text.length text

def isQuote (c : Char) : Bool :=
  c = '"' || c = '\x27' || c = '\x60'

def isBlankChar (c : Char) : Bool :=
  c = ' ' || c = '\t'

def isKeyChar (c : Char) : Bool :=
  c.isAlphanum || c = '_' || c = '-' || c = '.'

/-- Letters that end an unquoted value. -/
def isValueEnd (c : Char) : Bool :=
  isWhitespace c || isWrapper c || c = ',' || c = ';' || c = '}' || c = ']' || c = ')'

/-- The first `=` or `:` that can assign: not the `:` of `://` and not one of `::`. What stands
before it is collected in reverse. -/
def findAssignment (before : List Char) : List Char → Option (List Char × Char × List Char)
  | [] => none
  | c :: rest =>
    if c = '=' then some (before, c, rest)
    else if c = ':' && !("//".toList.isPrefixOf rest) && rest.head? ≠ some ':' &&
        before.head? ≠ some ':' then some (before, c, rest)
    else findAssignment (c :: before) rest

/-- The name before an assignment, read backwards: blanks are skipped and one layer of quotes is
taken off. -/
def assignedKey (before : List Char) : List Char :=
  let before := before.dropWhile isBlankChar
  match before with
  | quote :: content =>
    if isQuote quote then (content.takeWhile fun c => c ≠ quote).reverse
    else (before.takeWhile isKeyChar).reverse
  | [] => []

def isAuthScheme (value : List Char) : Bool :=
  ["bearer", "basic", "digest"].any fun scheme => value.map Char.toLower = scheme.toList

/-- What replaces an assigned value that follows its blanks, and the text after it. -/
def maskValue (text : List Char) : List Char × List Char :=
  match text.head?.filter isQuote with
  | some quote =>
    match splitOnce quote text.tail with
    | some (_, rest) => (quote :: redactedText ++ [quote], rest)
    | none => (quote :: redactedText, [])
  | none =>
    let value := text.takeWhile fun c => !isValueEnd c
    let rest := text.dropWhile fun c => !isValueEnd c
    -- the credential of `Bearer <token>` is the word after the scheme
    if isAuthScheme value then
      (redactedText, (rest.dropWhile isBlankChar).dropWhile fun c => !isValueEnd c)
    else (redactedText, rest)

def redactAssignmentsFrom : Nat → List Char → List Char
  | 0, rest => rest
  | fuel + 1, rest =>
    match findAssignment [] rest with
    | none => rest
    | some (before, separator, after) =>
      before.reverse ++ separator ::
        (if credentialLikeName (assignedKey before) then
          let (masked, rest) := maskValue (after.dropWhile isBlankChar)
          after.takeWhile isBlankChar ++ masked ++ redactAssignmentsFrom fuel rest
        else redactAssignmentsFrom fuel after)

def redactCredentialAssignmentsInText (text : List Char) : List Char :=
  redactAssignmentsFrom text.length text

end Policy

end Qcg
