import ApiContract.Proofs.Route.Parameters
import ApiContract.Proofs.Route.Separation
import ApiContract.Proofs.Text.Casing
import Mathlib.Data.List.Forall2

/-! # Keys and the case of letters

Paths and methods that differ only in the case of letters have one key unless they part somewhere: at a
letter whose capital has another lower case, or at a capital sigma whose form, at the end of a word or
inside it, is not the small sigma of the other text.

* `SameLetters`: texts that differ only in the case of letters.
* `TextPlace`: a character with the text around it; `TextPlace.Parts`: two texts part there.
* `lowerCase_eq_iff`: texts with the same letters have one lower case unless they part.
* `RouteKey.of_eq_iff_of_sameLetters`: the same for keys, and for what validators answer. -/

set_option autoImplicit false

namespace ApiContract

/-! ## Letters -/

/-- Letters and their capitals, where these have another lower case. -/
def foreignCapitals : List (Nat × Nat) :=
  [(0xB5, 0x39C), (0x131, 0x49), (0x17F, 0x53), (0x345, 0x399), (0x3D0, 0x392), (0x3D1, 0x398),
   (0x3D5, 0x3A6), (0x3D6, 0x3A0), (0x3F0, 0x39A), (0x3F1, 0x3A1), (0x3F5, 0x395), (0x1C80, 0x412),
   (0x1C81, 0x414), (0x1C82, 0x41E), (0x1C83, 0x421), (0x1C84, 0x422), (0x1C85, 0x422),
   (0x1C86, 0x42A), (0x1C87, 0x462), (0x1C88, 0xA64A), (0x1E9B, 0x1E60), (0x1FBE, 0x399)]

/-- The second character is the capital of the first, and has another lower case. -/
def IsForeignCapital (a b : Char) : Prop := (a.toNat, b.toNat) ∈ foreignCapitals

/-- Two characters are the same, or one is the other in the other case. -/
def SameLetter (a b : Char) : Prop :=
  lowerChar a = lowerChar b ∨ IsForeignCapital a b ∨ IsForeignCapital b a ∨
    (a = 'ς' ∧ b = 'Σ') ∨ (a = 'Σ' ∧ b = 'ς')

/-- Two texts differ only in the case of letters. -/
def SameLetters (s t : String) : Prop := List.Forall₂ SameLetter s.toList t.toList

instance (a b : Char) : Decidable (IsForeignCapital a b) := inferInstanceAs (Decidable (_ ∈ _))

instance (a b : Char) : Decidable (SameLetter a b) :=
  inferInstanceAs (Decidable (_ = _ ∨ _ ∨ _ ∨ (_ = _ ∧ _ = _) ∨ (_ = _ ∧ _ = _)))

section

variable {a b : Char}

theorem SameLetter.symm (h : SameLetter a b) : SameLetter b a := by
  rcases h with h | h | h | ⟨h, h'⟩ | ⟨h, h'⟩
  · exact .inl h.symm
  · exact .inr (.inr (.inl h))
  · exact .inr (.inl h)
  · exact .inr (.inr (.inr (.inr ⟨h', h⟩)))
  · exact .inr (.inr (.inr (.inl ⟨h', h⟩)))

theorem foreignCapitals_apart : ∀ pair ∈ foreignCapitals,
    lowerChar (Char.ofNat pair.1) ≠ lowerChar (Char.ofNat pair.2) ∧
      Char.ofNat pair.1 ∉ ['Σ', 'İ'] ∧ Char.ofNat pair.2 ∉ ['Σ', 'İ'] := by
  decide +kernel

theorem IsForeignCapital.apart (h : IsForeignCapital a b) :
    lowerChar a ≠ lowerChar b ∧ a ∉ ['Σ', 'İ'] ∧ b ∉ ['Σ', 'İ'] := by
  have hapart := foreignCapitals_apart _ h
  rwa [Char.ofNat_toNat, Char.ofNat_toNat] at hapart

theorem SameLetter.dotted (h : SameLetter a b) (ha : a = 'İ') : b = 'İ' := by
  have hdotted : lowerChar 'İ' = 'İ' := by decide +kernel
  subst ha
  rcases h with h | h | h | ⟨h, -⟩ | ⟨h, -⟩
  · exact lowerChar_eq_dotted (h.symm.trans hdotted)
  · exact absurd (by decide) h.apart.2.1
  · exact absurd (by decide) h.apart.2.2
  · cases h
  · cases h

/-- The letters that are the same as the capital sigma, with what they have as lower case. -/
theorem SameLetter.sigma (h : SameLetter 'Σ' b) :
    b = 'Σ' ∨ (b = 'σ' ∨ b = 'ς') ∧ lowerChar b = b := by
  have hcapital : lowerChar 'Σ' = 'σ' := by decide +kernel
  have hsmall : lowerChar 'σ' = 'σ' := by decide +kernel
  have hfinal : lowerChar 'ς' = 'ς' := by decide +kernel
  rcases h with h | h | h | ⟨h, -⟩ | ⟨-, rfl⟩
  · rcases lowerChar_eq_sigma (h.symm.trans hcapital) with rfl | rfl
    · exact .inr ⟨.inl rfl, hsmall⟩
    · exact .inl rfl
  · exact absurd (by decide) h.apart.2.1
  · exact absurd (by decide) h.apart.2.2
  · cases h
  · exact .inr ⟨.inr rfl, hfinal⟩

end

/-! ## Places -/

/-- A character of a text with the text before it, nearest character first, and the text after it. -/
structure TextPlace where
  before : List Char
  char : Char
  after : List Char

/-- The places of a text that follows the text `before`, which is given backwards. -/
def placesAfter (before : List Char) : List Char → List TextPlace
  | [] => []
  | c :: rest => ⟨before, c, rest⟩ :: placesAfter (c :: before) rest

def places (text : String) : List TextPlace := placesAfter [] text.toList

namespace TextPlace

variable {p q : TextPlace}

/-- The small sigma that a capital one becomes at a place. -/
def sigma (p : TextPlace) : Char := if meetsCased p.before && !meetsCased p.after then 'ς' else 'σ'

def lower (p : TextPlace) : List Char := lowerInContext p.before p.char p.after

/-- What parts a text from another one with the same letters. -/
inductive PartsFrom (p q : TextPlace) : Prop where
  | foreign (h : IsForeignCapital p.char q.char)
  | sigma (hp : p.char = 'Σ') (hq : q.char ≠ 'Σ') (h : q.char ≠ p.sigma)

/-- Two places at which two texts with the same letters part. -/
def Parts (p q : TextPlace) : Prop := p.PartsFrom q ∨ q.PartsFrom p

theorem lower_sigma (h : p.char = 'Σ') : p.lower = [p.sigma] := by
  rw [lower, h]
  rfl

theorem lower_dotted (h : p.char = 'İ') : p.lower = ['i', Char.ofNat 0x307] := by
  rw [lower, h]
  rfl

theorem lower_plain (hsigma : p.char ≠ 'Σ') (hdotted : p.char ≠ 'İ') : p.lower = [lowerChar p.char] := by
  have hne : ∀ c : Char, p.char ≠ c → p.char.toNat ≠ c.toNat := by
    intro c hc heq
    exact hc (by rw [← Char.ofNat_toNat p.char, heq, Char.ofNat_toNat])
  exact (if_neg (hne 'Σ' hsigma)).trans (if_neg (hne 'İ' hdotted))

theorem length_lower_of_ne (h : p.char ≠ 'İ') : p.lower.length = 1 := by
  by_cases hsigma : p.char = 'Σ'
  · rw [lower_sigma hsigma]
    rfl
  · rw [lower_plain hsigma h]
    rfl

theorem length_lower (h : SameLetter p.char q.char) : p.lower.length = q.lower.length := by
  by_cases hp : p.char = 'İ'
  · rw [lower_dotted hp, lower_dotted (h.dotted hp)]
  · rw [length_lower_of_ne hp, length_lower_of_ne fun hq => hp (h.symm.dotted hq)]

/-- A small sigma keeps its form. -/
theorem lower_of_sigma (h : SameLetter 'Σ' p.char) (hp : p.char ≠ 'Σ') : p.lower = [p.char] := by
  rcases h.sigma with hsigma | ⟨hsmall, hlower⟩
  · exact absurd hsigma hp
  · have hdotted : p.char ≠ 'İ' := by
      rcases hsmall with hsmall | hsmall <;> rw [hsmall] <;> decide
    rw [lower_plain hp hdotted, hlower]

/-- Where two texts with the same letters do not part, and capital sigmas have the same form, they have
one lower case. -/
theorem lower_eq (h : SameLetter p.char q.char) (hparts : ¬p.Parts q)
    (hsigma : p.char = 'Σ' → q.char = 'Σ' → p.sigma = q.sigma) : p.lower = q.lower := by
  by_cases hp : p.char = 'Σ'
  · by_cases hq : q.char = 'Σ'
    · rw [lower_sigma hp, lower_sigma hq, hsigma hp hq]
    · rw [lower_sigma hp, lower_of_sigma (hp ▸ h) hq]
      by_contra hne
      exact hparts (.inl (.sigma hp hq fun heq => hne (heq ▸ rfl)))
  · by_cases hq : q.char = 'Σ'
    · rw [lower_sigma hq, lower_of_sigma (hq ▸ h.symm) hp]
      by_contra hne
      exact hparts (.inr (.sigma hq hp fun heq => hne (heq ▸ rfl)))
    · rcases h with hlower | hforeign | hforeign | ⟨-, hcapital⟩ | ⟨hcapital, -⟩
      · by_cases hdotted : p.char = 'İ'
        · rw [lower_dotted hdotted, lower_dotted (SameLetter.dotted (.inl hlower) hdotted)]
        · have hother : q.char ≠ 'İ' := fun hq => hdotted (SameLetter.dotted (.inl hlower.symm) hq)
          rw [lower_plain hp hdotted, lower_plain hq hother, hlower]
      · exact absurd (.inl (.foreign hforeign)) hparts
      · exact absurd (.inr (.foreign hforeign)) hparts
      · exact absurd hcapital hq
      · exact absurd hcapital hp

theorem not_partsFrom (h : SameLetter p.char q.char) (hlower : p.lower = q.lower) : ¬p.PartsFrom q := by
  rintro (hforeign | ⟨hp, hq, hne⟩)
  · obtain ⟨hapart, hsmall, hcapital⟩ := hforeign.apart
    simp only [List.mem_cons, List.not_mem_nil, or_false, not_or] at hsmall hcapital
    rw [lower_plain hsmall.1 hsmall.2, lower_plain hcapital.1 hcapital.2] at hlower
    exact hapart (List.cons.inj hlower).1
  · rw [lower_sigma hp, lower_of_sigma (hp ▸ h) hq] at hlower
    exact hne (List.cons.inj hlower).1.symm

theorem not_parts (h : SameLetter p.char q.char) (hlower : p.lower = q.lower) : ¬p.Parts q := by
  rintro (hparts | hparts)
  · exact not_partsFrom h hlower hparts
  · exact not_partsFrom h.symm hlower.symm hparts

end TextPlace

/-! ## Texts -/

/-- Two characters are alike as neighbours of a sigma. -/
def AlikeNear (a b : Char) : Prop := isCased a = isCased b ∧ isCaseIgnorable a = isCaseIgnorable b

section

variable {before before' s t : List Char}

theorem meetsCased_eq (h : List.Forall₂ AlikeNear s t) : meetsCased s = meetsCased t := by
  induction h with
  | nil => rfl
  | @cons a b _ _ hab _ ih =>
    unfold meetsCased at ih ⊢
    rw [List.dropWhile_cons, List.dropWhile_cons, hab.2]
    by_cases hignorable : isCaseIgnorable b = true
    · rw [if_pos hignorable, if_pos hignorable]
      exact ih
    · rw [if_neg hignorable, if_neg hignorable]
      exact hab.1

theorem alikeNear_finalSigma : AlikeNear 'ς' 'Σ' := by
  have hcapital : capitalRuns.Has 'Σ'.toNat :=
    ⟨(0x3A3, 0x3AB, 1), by decide +kernel, by decide, by decide, rfl⟩
  exact ⟨(small_cased finalSigma_small).trans (capital_cased hcapital).symm,
    (not_ignorable (.inr finalSigma_small)).trans (not_ignorable (.inl hcapital)).symm⟩

theorem alikeNear_of_not_parts {p q : TextPlace} (h : SameLetter p.char q.char) (hparts : ¬p.Parts q) :
    AlikeNear p.char q.char := by
  rcases h with hlower | hforeign | hforeign | ⟨hp, hq⟩ | ⟨hp, hq⟩
  · constructor
    · rw [← isCased_lowerChar p.char, hlower, isCased_lowerChar]
    · rw [← isCaseIgnorable_lowerChar p.char, hlower, isCaseIgnorable_lowerChar]
  · exact absurd (.inl (.foreign hforeign)) hparts
  · exact absurd (.inr (.foreign hforeign)) hparts
  · rw [hp, hq]
    exact alikeNear_finalSigma
  · rw [hp, hq]
    exact ⟨alikeNear_finalSigma.1.symm, alikeNear_finalSigma.2.symm⟩

theorem alikeNear_after (h : List.Forall₂ SameLetter s t)
    (hparts : List.Forall₂ (fun p q => ¬TextPlace.Parts p q) (placesAfter before s)
      (placesAfter before' t)) :
    List.Forall₂ AlikeNear s t := by
  induction h generalizing before before' with
  | nil => exact .nil
  | cons hab _ ih =>
    cases hparts with
    | cons hhead hrest => exact .cons (alikeNear_of_not_parts hab hhead) (ih hrest)

/-- Texts with the same letters have one lower case exactly if they do not part anywhere. -/
theorem lowerAfter_eq_iff (h : List.Forall₂ SameLetter s t)
    (hbefore : List.Forall₂ AlikeNear before before') :
    lowerAfter before s = lowerAfter before' t ↔
      List.Forall₂ (fun p q => ¬TextPlace.Parts p q) (placesAfter before s) (placesAfter before' t) := by
  induction h generalizing before before' with
  | nil => exact ⟨fun _ => .nil, fun _ => rfl⟩
  | @cons a b s t hab hst ih =>
    have hlength : (TextPlace.lower ⟨before, a, s⟩).length = (TextPlace.lower ⟨before', b, t⟩).length :=
      TextPlace.length_lower hab
    constructor
    · intro heq
      obtain ⟨hhead, hrest⟩ := List.append_inj heq hlength
      have hparts : ¬TextPlace.Parts ⟨before, a, s⟩ ⟨before', b, t⟩ := TextPlace.not_parts hab hhead
      have hnear : AlikeNear a b := alikeNear_of_not_parts (p := ⟨before, a, s⟩) hab hparts
      exact .cons hparts ((ih (.cons hnear hbefore)).1 hrest)
    · intro hplaces
      cases hplaces with
      | cons hparts hrest =>
        have hnear := alikeNear_of_not_parts hab hparts
        have hhead : TextPlace.lower ⟨before, a, s⟩ = TextPlace.lower ⟨before', b, t⟩ := by
          refine TextPlace.lower_eq hab hparts fun _ _ => ?_
          rw [TextPlace.sigma, TextPlace.sigma, meetsCased_eq hbefore,
            meetsCased_eq (alikeNear_after hst hrest)]
        exact congrArg₂ (· ++ ·) hhead ((ih (.cons hnear hbefore)).2 hrest)

end

/-- Two texts do not part anywhere. -/
def NeverPart (s t : String) : Prop :=
  List.Forall₂ (fun p q => ¬TextPlace.Parts p q) (places s) (places t)

theorem lowerCase_eq_iff {s t : String} (h : SameLetters s t) :
    lowerCase s = lowerCase t ↔ NeverPart s t := by
  rw [lowerCase, lowerCase, String.ofList_inj]
  exact lowerAfter_eq_iff h .nil

/-! ## Keys -/

section

variable {p q m n : String}

theorem RouteKey.of_eq_iff (hpath : SameLetters p q) (hmethod : SameLetters m n) :
    RouteKey.of p m = RouteKey.of q n ↔ NeverPart p q ∧ NeverPart m n := by
  rw [RouteKey.of, RouteKey.of, RouteKey.mk.injEq, lowerCase_eq_iff hpath, lowerCase_eq_iff hmethod]

/-- A validator answers alike for two paths and methods, whatever is asked. -/
structure Validator.Alike (validator : Validator) (p m q n : String) : Prop where
  query : ∀ strict exclusions input,
    validator.checkQuery p m strict exclusions input = validator.checkQuery q n strict exclusions input
  requestBody : ∀ strict body,
    validator.checkRequestBody p m strict body = validator.checkRequestBody q n strict body
  responseBody : ∀ status strict body, validator.checkResponseBody p m status strict body =
    validator.checkResponseBody q n status strict body

theorem Validator.alike_of_key_eq (validator : Validator) (h : RouteKey.of p m = RouteKey.of q n) :
    validator.Alike p m q n := by
  refine ⟨fun strict exclusions input => ?_, fun strict body => ?_, fun status strict body => ?_⟩
  · rw [checkQuery, checkQuery, h]
  · rw [checkRequestBody, checkRequestBody, h]
  · rw [checkResponseBody, checkResponseBody, h]

/-- A route that must have a request body. -/
def demandingRoute (path : String) : Route :=
  { bareRoute path with requestBody := some ⟨⟨"", .object [], false⟩, true⟩ }

/-- With a body demanded of the first path and method, a second one with another key is told apart. -/
theorem key_eq_of_alike (h : ∀ validator : Validator, validator.Alike p m q n) :
    RouteKey.of p m = RouteKey.of q n := by
  by_contra hne
  have halike := (h ⟨[(.of p m, demandingRoute p)], .defaults⟩).requestBody false none
  simp [Validator.checkRequestBody, Validator.present, Registry.requestBody?, Registry.get?, hne,
    demandingRoute] at halike

/-- Paths and methods with the same letters have one key, and are answered alike by every validator,
exactly if they do not part anywhere. -/
theorem RouteKey.eq_iff_never_part (hpath : SameLetters p q) (hmethod : SameLetters m n) :
    (RouteKey.of p m = RouteKey.of q n ↔ NeverPart p q ∧ NeverPart m n) ∧
      ((∀ validator : Validator, validator.Alike p m q n) ↔ NeverPart p q ∧ NeverPart m n) := by
  have hkey := RouteKey.of_eq_iff hpath hmethod
  exact ⟨hkey, fun h => hkey.1 (key_eq_of_alike h),
    fun h validator => validator.alike_of_key_eq (hkey.2 h)⟩

end

/-! ## Sigmas at the end of a path -/

theorem lowerCase_capitalPath : lowerCase "/ΟΔΟΣ" = "/οδος" := by
  have hcapital : capitalRuns.Has 'Ο'.toNat :=
    ⟨(0x391, 0x3A1, 1), by decide +kernel, by decide, by decide, rfl⟩
  have hmeets : meetsCased ['Ο', 'Δ', 'Ο', '/'] = true := by
    rw [meetsCased, List.dropWhile_cons, not_ignorable (.inl hcapital)]
    exact capital_cased hcapital
  have hlast : lowerInContext ['Ο', 'Δ', 'Ο', '/'] 'Σ' [] = ['ς'] := by
    show [if meetsCased ['Ο', 'Δ', 'Ο', '/'] && !meetsCased [] then 'ς' else 'σ'] = ['ς']
    rw [hmeets]
    rfl
  show String.ofList (lowerInContext [] '/' ['Ο', 'Δ', 'Ο', 'Σ'] ++
    (lowerInContext ['/'] 'Ο' ['Δ', 'Ο', 'Σ'] ++ (lowerInContext ['Ο', '/'] 'Δ' ['Ο', 'Σ'] ++
      (lowerInContext ['Δ', 'Ο', '/'] 'Ο' ['Σ'] ++
        (lowerInContext ['Ο', 'Δ', 'Ο', '/'] 'Σ' [] ++ []))))) = _
  rw [hlast]
  decide +kernel

theorem lowerCase_smallPath : lowerCase "/οδοσ" = "/οδοσ" := by
  decide +kernel

/-- At the end of a path, the final sigma is the same as the capital one. -/
theorem finalSigma_never_parts :
    SameLetters "/ΟΔΟΣ" "/οδος" ∧ SameLetters "POST" "post" ∧
      RouteKey.of "/ΟΔΟΣ" "POST" = RouteKey.of "/οδος" "post" ∧
      ∀ validator : Validator, validator.Alike "/ΟΔΟΣ" "POST" "/οδος" "post" := by
  have hpath : SameLetters "/ΟΔΟΣ" "/οδος" := by
    unfold SameLetters
    decide +kernel
  have hmethod : SameLetters "POST" "post" := by
    unfold SameLetters
    decide +kernel
  have hlower : lowerCase "/οδος" = "/οδος" := by decide +kernel
  have hpost : lowerCase "POST" = lowerCase "post" := by decide +kernel
  have hkey : RouteKey.of "/ΟΔΟΣ" "POST" = RouteKey.of "/οδος" "post" := by
    rw [RouteKey.of, RouteKey.of, lowerCase_capitalPath, hlower, hpost]
  have hiff := RouteKey.eq_iff_never_part hpath hmethod
  exact ⟨hpath, hmethod, hkey, hiff.2.2 (hiff.1.1 hkey)⟩

def sigmaPaths : Fields := [("/ΟΔΟΣ", .object [("post", bodyOperation)])]

def sigmaContract : Contract := ⟨.object [("paths", .object sigmaPaths)], sigmaPaths, none, .lenient⟩

def sigmaRoute : Route :=
  { bareRoute "/ΟΔΟΣ" with
    requestBody := some ⟨⟨"#/paths/ΟΔΟΣ/post/requestBody", .object [], false⟩, false⟩ }

def sigmaValidator : Validator := ⟨.ofDeclarations [(.of "/ΟΔΟΣ" "post", sigmaRoute)], .defaults⟩

theorem sigmaContract_ofDocument :
    Contract.ofDocument .defaults sigmaContract.document = .ok sigmaContract := rfl

theorem sigmaValidator_ofDocument :
    Validator.ofDocument .defaults sigmaContract.document = .ok sigmaValidator := by
  have hschema : sigmaContract.compileSchema "#/paths/ΟΔΟΣ/post/requestBody" (.object []) =
      .ok ⟨"#/paths/ΟΔΟΣ/post/requestBody", .object [], false⟩ := CompiledSchema.compile_anything _
  have hroute : sigmaContract.compileOperation "/ΟΔΟΣ" .post bodyOperation [] = .ok sigmaRoute := by
    show (sigmaContract.compileSchema "#/paths/ΟΔΟΣ/post/requestBody" (.object []) >>=
      fun compiled => _) >>= _ = _
    rw [hschema]
    rfl
  have hdeclarations : sigmaContract.declarations = [.ok (.of "/ΟΔΟΣ" "post", sigmaRoute)] := by
    show [(sigmaContract.compileOperation "/ΟΔΟΣ" .post bodyOperation []).map _] = _
    rw [hroute]
    rfl
  rw [Validator.ofDocument, Registry.compile_of_single sigmaContract_ofDocument hdeclarations]
  rfl

/-- The capital and the small letters of a word that ends with a sigma are told apart: the request body
that is declared for the first is unexpected for the others. -/
theorem smallSigma_parts :
    ∃ validator, Validator.ofDocument .defaults sigmaContract.document = .ok validator ∧
      SameLetters "/ΟΔΟΣ" "/οδοσ" ∧ RouteKey.of "/ΟΔΟΣ" "post" ≠ RouteKey.of "/οδοσ" "post" ∧
      validator.checkRequestBody "/ΟΔΟΣ" "post" true (some (.object [("x", .ofNat 1)])) = none ∧
      validator.checkRequestBody "/οδοσ" "post" true (some (.object [("x", .ofNat 1)])) =
        some [Validator.unexpectedRequestBody] := by
  have hpath : SameLetters "/ΟΔΟΣ" "/οδοσ" := by
    unfold SameLetters
    decide +kernel
  have hkey : RouteKey.of "/ΟΔΟΣ" "post" ≠ RouteKey.of "/οδοσ" "post" := by
    rw [RouteKey.of, RouteKey.of, lowerCase_capitalPath, lowerCase_smallPath]
    decide +kernel
  refine ⟨sigmaValidator, sigmaValidator_ofDocument, hpath, hkey, ?_, ?_⟩
  · have hregistry : sigmaValidator.registry.requestBody? (.of "/ΟΔΟΣ" "post") =
        some ⟨⟨"#/paths/ΟΔΟΣ/post/requestBody", .object [], false⟩, false⟩ := by
      simp [sigmaValidator, Registry.ofDeclarations, Registry.declare, Registry.requestBody?,
        Registry.get?, sigmaRoute]
    have hviolations : CompiledSchema.violations ⟨"#/paths/ΟΔΟΣ/post/requestBody", .object [], false⟩
        (.object [("x", .ofNat 1)]) = [] := by
      unfold CompiledSchema.violations Evaluation.findings
      rw [Evaluation.findingsWith]
      rfl
    rw [Validator.checkRequestBody, hregistry]
    show reported (schemaErrors .request ⟨"#/paths/ΟΔΟΣ/post/requestBody", .object [], false⟩
      (.object [("x", .ofNat 1)])) = none
    rw [schemaErrors, hviolations]
    rfl
  · have hregistry : sigmaValidator.registry.requestBody? (.of "/οδοσ" "post") = none := by
      simp [sigmaValidator, Registry.ofDeclarations, Registry.declare, Registry.requestBody?,
        Registry.get?, hkey]
    rw [Validator.checkRequestBody, hregistry]
    rfl

end ApiContract
