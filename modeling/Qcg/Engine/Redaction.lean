import Qcg.Engine.Confirmation
import Qcg.Policy.Credential

/-!
# Redaction of tool arguments

What the journal keeps of the arguments of a call. Values of declared sensitive query parameters,
credential-like headers and every string below a credential-like key become a placeholder; request
bodies, file contents and replacement lines become a digest. A value that is not of the expected
kind stays as it is.
-/

namespace Qcg

namespace Gateway

open Json (Value Members)
open Encoding (utf8)
open Policy (credentialLikeName redactAllQueryValues)

structure UrlApi where
  Url : Type
  parse : String → Option Url
  queryPairs : Url → List (String × String)
  withQuery : Url → List (String × String) → Url
  toText : Url → String

inductive GatewayError where
  | unsupportedUrl (url : String)
deriving DecidableEq

def redactedPlaceholder : String :=
  "[REDACTED]"

def redactedHashPlaceholder (digest : String) : String :=
  "[REDACTED:sha256:" ++ digest ++ "]"

section

variable (urls : UrlApi)

def redactQueryParameters (value : String) (sensitive : BTreeMap String) :
    Except GatewayError String :=
  if sensitive.isEmpty then .ok value
  else
    match urls.parse value with
    | none => .error (.unsupportedUrl "HTTP response returned an invalid final URL")
    | some url =>
      let retained := (urls.queryPairs url).filter fun pair => !sensitive.contains pair.1
      .ok (urls.toText (urls.withQuery url retained))

def errorUrl (url : String) (sensitive : BTreeMap String) : String :=
  match redactQueryParameters urls url sensitive with
  | .ok redacted => redacted
  | .error _ => String.ofList (redactAllQueryValues url.toList)

def sensitiveQueryValues (url : String) (names : List String) :
    Except GatewayError (BTreeMap String) :=
  if names = [] then .ok ∅
  else
    match urls.parse url with
    | none => .error (.unsupportedUrl (errorUrl urls url ∅))
    | some parsed =>
      names.foldlM (fun values name =>
        match (urls.queryPairs parsed).find? fun pair => pair.1 = name with
        | some pair => .ok (values.insert name pair.2)
        | none => .error (.unsupportedUrl
            ("sensitive_query parameter `" ++ name ++ "` is not present in the url"))) ∅

def sensitiveNamesFromDecl : Option Value → Except GatewayError (List String)
  | none => .ok []
  | some declared =>
    match declared.asArray with
    | none => .error (.unsupportedUrl "sensitive_query must be an array of strings")
    | some names => names.mapM fun name =>
      match name.asStr with
      | some name => .ok name
      | none => .error (.unsupportedUrl "sensitive_query entries must be strings")

def redactUrlPreservingKeys (url : String) (sensitive : BTreeMap String) :
    Except GatewayError String :=
  if sensitive.isEmpty then .ok url
  else
    match urls.parse url with
    | none => .error (.unsupportedUrl "HTTP URL is invalid")
    | some parsed =>
      let pairs := (urls.queryPairs parsed).map fun pair =>
        if sensitive.contains pair.1 then (pair.1, redactedPlaceholder) else pair
      .ok (urls.toText (urls.withQuery parsed pairs))

def beforeQuery (url : String) : String :=
  String.ofList (url.toList.takeWhile fun c => c ≠ '?')

/-- What the journal keeps of a URL under the declaration of its sensitive parameters. A
malformed declaration and an absent parameter cost the whole query. -/
def redactDeclaredUrl (url : String) (declared : Option Value) : String :=
  match sensitiveNamesFromDecl declared with
  | .error _ => beforeQuery url
  | .ok [] => url
  | .ok names =>
    match sensitiveQueryValues urls url names with
    | .error _ => beforeQuery url
    | .ok sensitive =>
      match redactUrlPreservingKeys urls url sensitive with
      | .ok redacted => redacted
      | .error _ => beforeQuery url

end

/-- A change of strings; a value of another kind stays. -/
def onStr (f : String → String) : Value → Value
  | .str s => .str (f s)
  | v => v

def redactHeaders : Value → Value
  | .obj headers => .obj (headers.map fun header =>
      if credentialLikeName header.1.toList && header.2.isString then
        (header.1, .str redactedPlaceholder)
      else header)
  | v => v

variable (sha256 : Sha256) (urls : UrlApi)

def hashText (text : String) : String :=
  redactedHashPlaceholder (sha256.hex (utf8 text))

def redactHttpArgsForJournal : Value → Value
  | .obj members =>
    let declared := Members.get members "sensitive_query"
    let members := Members.modify members "url"
      (onStr fun url => redactDeclaredUrl urls url declared)
    let members := Members.modify members "headers" redactHeaders
    .obj (Members.modify members "body" (onStr (hashText sha256)))
  | v => v

def redactFsWriteArgsForJournal : Value → Value
  | .obj members => .obj (Members.modify members "content" (onStr (hashText sha256)))
  | v => v

def redactLines : Value → Value
  | .arr lines => .str (redactedHashPlaceholder (sha256.hex (Value.arr lines).toVec))
  | v => v

def redactEdit : Value → Value
  | .obj item => .obj (Members.modify item "lines" (redactLines sha256))
  | v => v

def redactEdits : Value → Value
  | .arr edits => .arr (edits.map (redactEdit sha256))
  | v => v

def redactFsPatchArgsForJournal : Value → Value
  | .obj members => .obj (Members.modify members "edits" (redactEdits sha256))
  | v => v

mutual

/-- Strings are replaced below a credential-like key. -/
def redactBelow (below : Bool) : Value → Value
  | .obj members => .obj (redactMembers below members)
  | .arr items => .arr (redactItems below items)
  | .str s => if below then .str redactedPlaceholder else .str s
  | v => v

def redactItems (below : Bool) : List Value → List Value
  | [] => []
  | item :: items => redactBelow below item :: redactItems below items

def redactMembers (below : Bool) : Members → Members
  | [] => []
  | (key, value) :: members =>
    (key,
      if credentialLikeName key.toList && value.isString then .str redactedPlaceholder
      else redactBelow (below || credentialLikeName key.toList) value) ::
      redactMembers below members

end

def redactCredentialValues (value : Value) : Value :=
  redactBelow false value

def redactMcpArgsForJournal (args : Value) : Value :=
  let redacted := redactCredentialValues args
  if (redacted.getStr "url").isSome then redactHttpArgsForJournal sha256 urls redacted
  else redacted

end Gateway

end Qcg
