import ApiContract.Definition.Decode

/-!
# Options

What a host chooses when a contract is compiled.

* `CoercionPolicy`: how texts of a query become numbers and flags.
* `Options`: the policy and three switches, with `decodeOptions` and `Options.toJson`.
-/

namespace ApiContract

/-- How the texts of a query are turned into values. -/
inductive CoercionPolicy where
  /-- They stay texts. -/
  | disabled
  /-- What can be converted is; anything else stays. -/
  | lenient
  /-- Only exact literals are converted, and an unknown flag becomes null. -/
  | strict
deriving DecidableEq, Repr

namespace CoercionPolicy

def isEnabled (policy : CoercionPolicy) : Bool := policy != disabled

/-- A policy as it is written in options. -/
def toJson : CoercionPolicy → Json
  | disabled => .bool false
  | lenient => .bool true
  | strict => .string "strict"

/-- A policy is a flag or one of three words. -/
def decode : Json → Decoded CoercionPolicy
  | .bool true => .ok lenient
  | .bool false => .ok disabled
  | .string word =>
    if word = "strict" then .ok strict
    else if word = "lenient" then .ok lenient
    else if word = "disabled" then .ok disabled
    else
      .error (.unknownWord
        ("invalid coerceTypes value '" ++ word ++ "', expected true, false or \"strict\""))
  | _ => .error (.noVariant "CoerceTypesRepr")

end CoercionPolicy

/-- The choices of a host. -/
structure Options where
  /-- Whether component schemas that leave it open allow no further properties. -/
  closeSchemas : Bool
  /-- Whether native dates in bodies are turned into texts before they are checked. -/
  convertDates : Bool
  coercion : CoercionPolicy
  /-- Whether a piece that cannot be compiled fails the whole contract. -/
  strict : Bool
deriving DecidableEq, Repr

namespace Options

def defaults : Options := ⟨true, true, .lenient, true⟩

def decode : Json → Decoded Options :=
  decodeRecord
    [.defaulted "setAdditionalPropertiesToFalse" decodeFlag
       fun closeSchemas o => { o with closeSchemas },
     .defaulted "convertDatesToIsoString" decodeFlag fun convertDates o => { o with convertDates },
     .defaulted "coerceTypes" CoercionPolicy.decode fun coercion o => { o with coercion },
     .defaulted "strict" decodeFlag fun strict o => { o with strict }]
    "ValidatorOptions" defaults

def toJson (options : Options) : Json :=
  .objectOf
    [("setAdditionalPropertiesToFalse", .bool options.closeSchemas),
     ("convertDatesToIsoString", .bool options.convertDates),
     ("coerceTypes", options.coercion.toJson),
     ("strict", .bool options.strict)]

end Options

end ApiContract
