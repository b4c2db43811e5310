import ApiContract.Proofs.Preparation.Prepared
import ApiContract.Proofs.Route.Compiling

/-! # Declaring alike

Two prepared documents that differ in the name of one response declare the same routes. On all routes but
one they check the same; on that one, the response of the one name is checked as that of the other.

* `SameDeclaration`: a route that is declared in both.
* `declarations_agree`: the declarations of two documents, one by one.
* `Registry.response?_same`: what the routes say of the response. -/

set_option autoImplicit false

namespace ApiContract

/-- Declarations of one route, with responses that check the same if the route has a key. -/
def SameDeclaration (first second : String) (key : RouteKey) (one another : RouteKey × Route) : Prop :=
  one.1 = another.1 ∧ (one.1 = key → SameResponses first second one.2.responses another.2.responses)

/-! ## Registries -/

section

variable {first second : String} {key : RouteKey}

theorem SameResponses.over {later others earlier given : Route}
    (hlater : SameResponses first second later.responses others.responses)
    (hearlier : SameResponses first second earlier.responses given.responses) :
    SameResponses first second (later.over earlier).responses (others.over given).responses := by
  unfold Route.over
  simp only [hlater.isEmpty]
  split
  · exact hearlier
  · exact hlater

theorem Registry.declare_same {name : RouteKey} {one another : Route}
    (hroute : SameDeclaration first second key (name, one) (name, another)) {left right : Registry}
    (h : List.Forall₂ (SameDeclaration first second key) left right) :
    List.Forall₂ (SameDeclaration first second key) (declare name one left)
      (declare name another right) := by
  induction h with
  | nil => exact .cons hroute .nil
  | @cons known given rest others hknown hrest ih =>
    obtain ⟨known, earlier⟩ := known
    obtain ⟨same, given⟩ := given
    obtain ⟨rfl, hresponses⟩ : known = same ∧ _ := hknown
    rw [declare, declare]
    by_cases heq : known = name
    · rw [if_pos heq, if_pos heq]
      refine .cons ⟨rfl, fun hkey => (hroute.2 hkey).over (hresponses ?_)⟩ hrest
      exact heq.trans hkey
    · rw [if_neg heq, if_neg heq]
      split
      · exact .cons hroute (.cons ⟨rfl, hresponses⟩ hrest)
      · exact .cons ⟨rfl, hresponses⟩ ih

theorem Registry.ofDeclarations_same {left right : List (RouteKey × Route)}
    (h : List.Forall₂ (SameDeclaration first second key) left right) :
    List.Forall₂ (SameDeclaration first second key) (ofDeclarations left) (ofDeclarations right) := by
  refine List.rel_foldl (P := List.Forall₂ (SameDeclaration first second key))
    (R := SameDeclaration first second key) ?_ .nil h
  rintro left right hregistry ⟨name, one⟩ ⟨same, another⟩ hroute
  obtain rfl : name = same := hroute.1
  exact declare_same hroute hregistry

theorem Registry.response?_same {left right : Registry}
    (h : List.Forall₂ (SameDeclaration first second key) left right) :
    (left.response? key first).map CompiledSchema.unnamed =
      (right.response? key second).map CompiledSchema.unnamed := by
  induction h with
  | nil => rfl
  | @cons known given rest others hknown hrest ih =>
    obtain ⟨known, earlier⟩ := known
    obtain ⟨same, given⟩ := given
    obtain ⟨rfl, hresponses⟩ : known = same ∧ _ := hknown
    by_cases heq : known = key
    · have hfound : ∀ (route : Route) (registry : Registry) (status : String),
          response? ((known, route) :: registry) key status = route.responses.get? status := by
        intro route registry status
        simp [response?, get?, heq]
      rw [hfound, hfound]
      exact (hresponses heq).check
    · have hrest : ∀ (route : Route) (registry : Registry) (status : String),
          response? ((known, route) :: registry) key status = response? registry key status := by
        intro route registry status
        simp [response?, get?, heq]
      rw [hrest, hrest]
      exact ih

end

/-! ## Results -/

section

variable {ε α β : Type} {r : α → β → Prop} {left : List (Except ε α)} {right : List (Except ε β)}

theorem allResults_agree (h : List.Forall₂ (Agree r) left right) :
    Agree (List.Forall₂ r) (allResults left) (allResults right) := by
  induction h with
  | nil => exact .ok .nil
  | cons hone _ ih =>
    cases hone with
    | error e f => exact .error e f
    | ok hvalue => exact ih.map fun _ _ hrest => .cons hvalue hrest

theorem forall₂_filterMap {γ : Type} {f : γ → Option α} {g : γ → Option β}
    (h : ∀ item, Option.Rel r (f item) (g item)) (items : List γ) :
    List.Forall₂ r (items.filterMap f) (items.filterMap g) := by
  refine List.rel_filterMap (R := Eq) ?_ (List.forall₂_refl items)
  rintro item _ rfl
  exact h item

theorem someResults_forall₂ (h : List.Forall₂ (Agree r) left right) :
    List.Forall₂ r (someResults left) (someResults right) := by
  refine List.rel_filterMap ?_ h
  intro one another hone
  cases hone with
  | error e f => exact .none
  | ok hvalue => exact .some hvalue

end

/-! ## Declarations -/

theorem Method.eq_of_lowerCase {one another : Method}
    (h : lowerCase one.name = lowerCase another.name) : one = another := by
  cases one <;> cases another <;> first | rfl | exact absurd h (by decide +kernel)

/-- What stands around the responses of an operation, in the paths of a contract. -/
structure ResponseFrame (path : String) (method : Method) where
  paths : Frame path
  item : Frame method.name
  operation : Frame "responses"

def ResponseFrame.fill {path : String} {method : Method} (frame : ResponseFrame path method)
    (responses : Fields) : Fields :=
  frame.paths.fill (.object (frame.item.fill (.object (frame.operation.fill (.object responses)))))

namespace Contract

section

variable {first second : String} {left right : Contract}

/-- The outcome for one operation. -/
def declaration (contract : Contract) (path : String) (shared : List Json) (method : Method)
    (raw : Json) : Except ContractError (RouteKey × Route) :=
  (contract.compileOperation path method raw shared).map fun route => (RouteKey.of path method.name, route)

theorem declaration_elsewhere (h : SameComponents left right) {key : RouteKey} {path : String}
    {method : Method} (hkey : RouteKey.of path method.name ≠ key) (shared : List Json) (raw : Json) :
    Agree (SameDeclaration first second key) (left.declaration path shared method raw)
      (right.declaration path shared method raw) := by
  have hsame : Agree (fun one another : Operation => one.parameters = another.parameters ∧
      one.requestBody = another.requestBody ∧ ∀ base, Agree (fun _ _ => True)
        (right.compileResponses base one.responses) (right.compileResponses base another.responses))
      (decodeOperation raw) (decodeOperation raw) :=
    Agree.refl (fun _ => ⟨rfl, rfl, fun _ => Agree.refl (fun _ => trivial) _⟩) _
  exact (compileOperation_agree h hsame path method shared).map fun _ _ _ =>
    ⟨rfl, fun hown => absurd hown hkey⟩

theorem declaration_there (h : SameComponents left right) {others : Fields} {value : Json}
    (frame : Frame "responses") (hfirst : others.get? first = none) (hsecond : others.get? second = none)
    (path : String) (shared : List Json) (method : Method) :
    Agree (SameDeclaration first second (.of path method.name))
      (left.declaration path shared method
        (.object (frame.fill (.object (others.insert first value)))))
      (right.declaration path shared method
        (.object (frame.fill (.object (others.insert second value))))) := by
  have hread := decodeOperation_agree frame hfirst hsecond value
  refine (compileOperation_agree (r := SameResponses first second) h ?_ path method shared).map
    fun _ _ hsame => ⟨rfl, fun _ => hsame⟩
  exact hread.mono fun _ _ ⟨hparameters, hbody, hresponses⟩ =>
    ⟨hparameters, hbody, fun _ => compileResponses_agree hresponses⟩

theorem pathDeclarations_of_read {contract : Contract} {path : String} {raw : Json} {item : PathItem}
    (h : readPathItem path raw = .ok item) : contract.pathDeclarations path raw =
      Method.all.filterMap fun method =>
        (item.operation method).map (contract.declaration path item.parameters method) := by
  rw [pathDeclarations, h]
  simp only [PathItem.operations, List.map_filterMap, Option.map_map]
  rfl

theorem pathDeclarations_elsewhere {key : RouteKey} {path : String} (h : SameComponents left right)
    (hpath : lowerCase path ≠ key.path) (raw : Json) :
    List.Forall₂ (Agree (SameDeclaration first second key)) (left.pathDeclarations path raw)
      (right.pathDeclarations path raw) := by
  cases hread : readPathItem path raw with
  | error e =>
    rw [pathDeclarations, pathDeclarations, hread]
    exact .cons (.error e e) .nil
  | ok item =>
    rw [pathDeclarations_of_read hread, pathDeclarations_of_read hread]
    refine forall₂_filterMap (fun method => ?_) _
    cases item.operation method with
    | none => exact .none
    | some raw =>
      exact .some (declaration_elsewhere h (fun heq => hpath (congrArg RouteKey.path heq)) _ raw)

theorem readPathItem_agree (path : String) {method : Method} (frame : Frame method.name)
    (left right : Fields) :
    Agree (fun one another : PathItem => one.parameters = another.parameters ∧
        (∀ other, other ≠ method → one.operation other = another.operation other) ∧
          one.operation method = some (.object left) ∧ another.operation method = some (.object right))
      (readPathItem path (.object (frame.fill (.object left))))
      (readPathItem path (.object (frame.fill (.object right)))) :=
  (decodePathItem_agree frame left right).mapError

theorem pathDeclarations_there {path : String} {method : Method} {others : Fields} {value : Json}
    (h : SameComponents left right) (item : Frame method.name) (operation : Frame "responses")
    (hfirst : others.get? first = none) (hsecond : others.get? second = none) :
    List.Forall₂ (Agree (SameDeclaration first second (.of path method.name)))
      (left.pathDeclarations path (.object (item.fill (.object
        (operation.fill (.object (others.insert first value)))))))
      (right.pathDeclarations path (.object (item.fill (.object
        (operation.fill (.object (others.insert second value))))))) := by
  have hread := readPathItem_agree path item (operation.fill (.object (others.insert first value)))
    (operation.fill (.object (others.insert second value)))
  generalize Json.object (item.fill (.object
    (operation.fill (.object (others.insert first value))))) = one at hread ⊢
  generalize Json.object (item.fill (.object
    (operation.fill (.object (others.insert second value))))) = another at hread ⊢
  generalize hone : readPathItem path one = x at hread
  generalize htwo : readPathItem path another = y at hread
  cases hread with
  | error e f =>
    rw [pathDeclarations, pathDeclarations, hone, htwo]
    exact .cons (.error e f) .nil
  | ok hsame =>
    obtain ⟨hparameters, hothers, hoperation, hchanged⟩ := hsame
    rw [pathDeclarations_of_read hone, pathDeclarations_of_read htwo, hparameters]
    refine forall₂_filterMap (fun own => ?_) _
    by_cases hown : own = method
    · subst hown
      rw [hoperation, hchanged]
      exact .some (declaration_there h operation hfirst hsecond path _ own)
    · rw [hothers own hown]
      cases PathItem.operation _ own with
      | none => exact .none
      | some raw =>
        refine .some (declaration_elsewhere h (fun hkey => hown ?_) _ raw)
        exact Method.eq_of_lowerCase (congrArg RouteKey.method hkey)

theorem declarations_agree {path : String} {method : Method} {others : Fields} {value : Json}
    (h : SameComponents left right) (frame : ResponseFrame path method)
    (hfirst : others.get? first = none) (hsecond : others.get? second = none)
    (hapart : ∀ other ∈ frame.paths.otherKeys, lowerCase other ≠ lowerCase path)
    (hleft : left.paths = frame.fill (others.insert first value))
    (hright : right.paths = frame.fill (others.insert second value)) :
    List.Forall₂ (Agree (SameDeclaration first second (.of path method.name))) left.declarations
      right.declarations := by
  have hothers : ∀ entries : Fields, (∀ entry ∈ entries, entry.1 ∈ frame.paths.otherKeys) →
      List.Forall₂ (Agree (SameDeclaration first second (.of path method.name)))
        (entries.flatMap fun entry => left.pathDeclarations entry.1 entry.2)
        (entries.flatMap fun entry => right.pathDeclarations entry.1 entry.2) := by
    intro entries
    induction entries with
    | nil => exact fun _ => .nil
    | cons entry rest ih =>
      intro hentries
      obtain ⟨hentry, hrest⟩ := List.forall_mem_cons.1 hentries
      rw [List.flatMap_cons, List.flatMap_cons]
      exact List.rel_append (pathDeclarations_elsewhere h (hapart _ hentry) entry.2) (ih hrest)
  have hkeys : ∀ entry ∈ frame.paths.front ++ frame.paths.back, entry.1 ∈ frame.paths.otherKeys :=
    fun entry hentry => List.mem_map_of_mem hentry
  obtain ⟨hfront, hback⟩ := List.forall_mem_append.1 hkeys
  unfold declarations
  rw [hleft, hright, ResponseFrame.fill, ResponseFrame.fill, Frame.flatMap_fill, Frame.flatMap_fill]
  refine List.rel_append (hothers _ hfront) (List.rel_append ?_ (hothers _ hback))
  exact pathDeclarations_there h frame.item frame.operation hfirst hsecond

end

end Contract

end ApiContract
