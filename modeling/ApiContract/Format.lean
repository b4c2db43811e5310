import ApiContract.Format.Mail
import ApiContract.Format.Moment
import ApiContract.Format.Pointer
import ApiContract.Format.Uri
import ApiContract.Pattern.Parser

/-!
# Formats

The formats of texts that schemas name with the keyword `format`. `Format.ofName?` gives the format of a
name, for those that are checked, and `Format.holds` tells whether a text has it.
-/

namespace ApiContract

/-- A format of texts. -/
inductive Format where
  | date | dateTime | time
  | email | idnEmail
  | hostname | idnHostname
  | ipv4 | ipv6
  | uri | uriReference | iri | iriReference | uriTemplate
  | jsonPointer | relativeJsonPointer
  | regex
deriving DecidableEq, Repr

namespace Format

def name : Format → String
  | date => "date"
  | dateTime => "date-time"
  | time => "time"
  | email => "email"
  | idnEmail => "idn-email"
  | hostname => "hostname"
  | idnHostname => "idn-hostname"
  | ipv4 => "ipv4"
  | ipv6 => "ipv6"
  | uri => "uri"
  | uriReference => "uri-reference"
  | iri => "iri"
  | iriReference => "iri-reference"
  | uriTemplate => "uri-template"
  | jsonPointer => "json-pointer"
  | relativeJsonPointer => "relative-json-pointer"
  | regex => "regex"

def all : List Format :=
  [date, dateTime, time, email, idnEmail, hostname, idnHostname, ipv4, ipv6, uri, uriReference,
   iri, iriReference, uriTemplate, jsonPointer, relativeJsonPointer, regex]

/-- The format of a name, if it is one that is checked. -/
def ofName? (name : String) : Option Format := all.find? (·.name == name)

/-- The texts in which braces hold lists of variables. -/
def templatePattern : String :=
  let name := "(?:[a-z0-9_]|%[0-9a-f]\x7b2\x7d)+(?::[1-9][0-9]\x7b0,3\x7d|\\*)?"
  "^(?:(?:[^\\x00-\\x20\"'<>%\\\\^`\x7b|\x7d]|%[0-9a-f]\x7b2\x7d)|\\\x7b[+#./;?&=,!@|]?" ++
    name ++ "(?:," ++ name ++ ")*\\\x7d)*$"

/-- Whether a text has a format. -/
def holds (format : Format) (text : String) : Bool :=
  let chars := text.toList
  match format with
  | date => isDate chars
  | dateTime => isDateTime chars
  | time => isTime chars
  | email => isMailAddress isHostname chars
  | idnEmail => isMailAddress isIdnHostname chars
  | hostname => isHostname chars
  | idnHostname => isIdnHostname chars
  | ipv4 => isIpv4 chars
  | ipv6 => isIpv6 chars
  | uri => isUri false chars
  | uriReference => isUriReference false chars
  | iri => isUri true chars
  | iriReference => isUriReference true chars
  | uriTemplate => matchesPattern templatePattern text
  | jsonPointer => isPointer chars
  | relativeJsonPointer => isRelativePointer chars
  | regex => (Pattern.parse? text).isSome

end Format

end ApiContract
