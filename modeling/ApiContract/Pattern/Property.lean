import ApiContract.Pattern.Syntax

/-!
# Named sets of characters

The names that stand in patterns for sets of characters: general categories and a few properties in
`\p\x7b..\x7d`, and the classes of ASCII characters in `[:..:]`.
-/

namespace ApiContract

namespace CharSet

/-! ## Digits, words, blanks -/

def asciiDigit : CharSet := ofRanges [('0', '9')]

def asciiWord : CharSet := ofRanges [('0', '9'), ('A', 'Z'), ('a', 'z'), ('_', '_')]

/-- Blanks of schema patterns: tab to carriage return, the space, and four separators. -/
def schemaBlank : CharSet :=
  union (range 9 13) (ofChars [' ', Char.ofNat 0x2003, Char.ofNat 0x2029, Char.ofNat 0xFEFF])

def anyDigit : CharSet := category [.decimalNumber]

def anyWord : CharSet :=
  union (category (Category.letters ++ Category.marks ++
      [.decimalNumber, .connectorPunctuation, .letterNumber]))
    (range 0x200C 0x200D)

def anyBlank : CharSet :=
  union (union (range 9 13) (range 0x2028 0x2029))
    (union (category [.spaceSeparator]) (single (Char.ofNat 0x85)))

/-! ## Properties -/

/-- General categories by their names, in small letters without separators. -/
def categoryNames : List (List String × List Category) :=
  [(["l", "letter"], Category.letters),
   (["lc", "casedletter"], [.uppercaseLetter, .lowercaseLetter, .titlecaseLetter]),
   (["lu", "uppercaseletter", "uppercase", "upper"], [.uppercaseLetter]),
   (["ll", "lowercaseletter", "lowercase", "lower"], [.lowercaseLetter]),
   (["lt", "titlecaseletter"], [.titlecaseLetter]),
   (["lm", "modifierletter"], [.modifierLetter]),
   (["lo", "otherletter"], [.otherLetter]),
   (["m", "mark", "combiningmark"], Category.marks),
   (["mn", "nonspacingmark"], [.nonspacingMark]),
   (["mc", "spacingmark"], [.spacingMark]),
   (["me", "enclosingmark"], [.enclosingMark]),
   (["n", "number"], [.decimalNumber, .letterNumber, .otherNumber]),
   (["nd", "decimalnumber", "digit"], [.decimalNumber]),
   (["nl", "letternumber"], [.letterNumber]),
   (["no", "othernumber"], [.otherNumber]),
   (["p", "punctuation", "punct"],
    [.connectorPunctuation, .dashPunctuation, .openPunctuation, .closePunctuation,
     .initialPunctuation, .finalPunctuation, .otherPunctuation]),
   (["pc", "connectorpunctuation"], [.connectorPunctuation]),
   (["pd", "dashpunctuation"], [.dashPunctuation]),
   (["ps", "openpunctuation"], [.openPunctuation]),
   (["pe", "closepunctuation"], [.closePunctuation]),
   (["pi", "initialpunctuation"], [.initialPunctuation]),
   (["pf", "finalpunctuation"], [.finalPunctuation]),
   (["po", "otherpunctuation"], [.otherPunctuation]),
   (["s", "symbol"], [.mathSymbol, .currencySymbol, .modifierSymbol, .otherSymbol]),
   (["sm", "mathsymbol"], [.mathSymbol]),
   (["sc", "currencysymbol"], [.currencySymbol]),
   (["sk", "modifiersymbol"], [.modifierSymbol]),
   (["so", "othersymbol"], [.otherSymbol]),
   (["z", "separator"], [.spaceSeparator, .lineSeparator, .paragraphSeparator]),
   (["zs", "spaceseparator"], [.spaceSeparator]),
   (["zl", "lineseparator"], [.lineSeparator]),
   (["zp", "paragraphseparator"], [.paragraphSeparator]),
   (["c", "other"], [.control, .format, .surrogate, .privateUse, .unassigned]),
   (["cc", "control", "cntrl"], [.control]),
   (["cf", "format"], [.format]),
   (["cs", "surrogate"], [.surrogate]),
   (["co", "privateuse"], [.privateUse]),
   (["cn", "unassigned"], [.unassigned])]

/-- The scripts of the most used alphabets, with the ranges of their letters. -/
def scriptRanges : List (List String × List String) :=
  [(["latin", "latn"],
    ["41-5A 61-7A AA BA C0-D6 D8-F6 F8-2B8 2E0-2E4 1D00-1D25 1D2C-1D5C 1D62-1D65 1D6B-1D77",
     "1D79-1DBE 1E00-1EFF 2071 207F 2090-209C 212A-212B 2132 214E 2160-2188 2C60-2C7F A722-A787",
     "A78B-A7CA A7F2-A7FF AB30-AB5A AB5C-AB64 FB00-FB06 FF21-FF3A FF41-FF5A"]),
   (["greek", "grek"],
    ["370-373 375-377 37A-37D 37F 384 386 388-38A 38C 38E-3A1 3A3-3E1 3F0-3FF 1D26-1D2A",
     "1D5D-1D61 1D66-1D6A 1DBF 1F00-1F15 1F18-1F1D 1F20-1F45 1F48-1F4D 1F50-1F57 1F59 1F5B",
     "1F5D 1F5F-1F7D 1F80-1FB4 1FB6-1FC4 1FC6-1FD3 1FD6-1FDB 1FDD-1FEF 1FF2-1FF4 1FF6-1FFE 2126"]),
   (["cyrillic", "cyrl"], ["400-484 487-52F 1C80-1C8A 1D2B 1D78 2DE0-2DFF A640-A69F FE2E-FE2F"]),
   (["hebrew", "hebr"], ["591-5C7 5D0-5EA 5EF-5F4 FB1D-FB36 FB38-FB3C FB3E FB40-FB41 FB43-FB4F"]),
   (["arabic", "arab"],
    ["600-604 606-60B 60D-61A 61C-61E 620-63F 641-64A 656-66F 671-6DC 6DE-6FF 750-77F 870-88E",
     "8A0-8E1 8E3-8FF FB50-FBC2 FBD3-FD3D FD50-FD8F FD92-FDC7 FDF0-FDFF FE70-FE74 FE76-FEFC"]),
   (["han", "hani"],
    ["2E80-2E99 2E9B-2EF3 2F00-2FD5 3005 3007 3021-3029 3038-303B 3400-4DBF 4E00-9FFF F900-FA6D",
     "FA70-FAD9 16FE2-16FE3 16FF0-16FF1 20000-2A6DF 2A700-2EBE0 2F800-2FA1D 30000-323AF"]),
   (["hiragana", "hira"], ["3041-3096 309D-309F 1B001-1B11F 1B150-1B152 1F200"]),
   (["katakana", "kana"],
    ["30A1-30FA 30FD-30FF 31F0-31FF 32D0-32FE 3300-3357 FF66-FF6F FF71-FF9D 1B000"])]

/-- The set of ranges of code points. -/
def ofCodeRanges (ranges : CodeRanges) : CharSet :=
  ranges.foldr (fun r set => union (range r.1 r.2) set) none

/-- A name in small letters and without separators. -/
def plainName (name : List Char) : String :=
  asciiLower (String.ofList (name.filter fun c => c != '_' && c != '-' && c != ' '))

/-- The set that a property name stands for. -/
def ofPropertyName? (name : String) : Option CharSet :=
  if name = "any" then some any
  else if name = "ascii" then some (range 0 127)
  else if name = "assigned" then some (complement (category [.unassigned]))
  else if name = "alphabetic" || name = "alpha" then
    some (category (Category.letters ++ [.letterNumber]))
  else if name = "whitespace" || name = "space" then some anyBlank
  else
    match categoryNames.find? fun entry => entry.1.contains name with
    | some entry => some (category entry.2)
    | Option.none =>
      (scriptRanges.find? fun entry => entry.1.contains name).map fun entry =>
        ofCodeRanges (readRanges entry.2)

/-- The set that the text between braces stands for: a name, or a kind of property and a name. -/
def ofProperty? (text : List Char) : Option CharSet :=
  match text.dropWhile (· ≠ '=') with
  | [] => ofPropertyName? (plainName text)
  | _ :: value =>
    let kind := plainName (text.takeWhile (· ≠ '='))
    if kind = "gc" || kind = "generalcategory" || kind = "sc" || kind = "script" ||
        kind = "scx" || kind = "scriptextensions" then
      ofPropertyName? (plainName value)
    else Option.none

/-! ## Classes of ASCII characters -/

/-- The set that a name between colons stands for. -/
def ofAsciiName? (name : String) : Option CharSet :=
  let found : List (String × CharSet) :=
    [("alnum", ofRanges [('0', '9'), ('A', 'Z'), ('a', 'z')]),
     ("alpha", ofRanges [('A', 'Z'), ('a', 'z')]),
     ("ascii", range 0 127),
     ("blank", ofChars ['\t', ' ']),
     ("cntrl", union (range 0 31) (range 127 127)),
     ("digit", asciiDigit),
     ("graph", range 33 126),
     ("lower", ofRanges [('a', 'z')]),
     ("print", range 32 126),
     ("punct", union (union (range 33 47) (range 58 64)) (union (range 91 96) (range 123 126))),
     ("space", union (range 9 13) (single ' ')),
     ("upper", ofRanges [('A', 'Z')]),
     ("word", asciiWord),
     ("xdigit", ofRanges [('0', '9'), ('A', 'F'), ('a', 'f')])]
  (found.find? (·.1 == name)).map (·.2)

end CharSet

end ApiContract
