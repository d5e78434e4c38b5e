/-
The parts of a request as code. The URL and the headers read the fields of parameters and of the
authorization that they send, one after the other, and the body reads itself.
-/

import ElmClient.Elm.Request
import ElmClient.Proofs.Closed.Elm
import ElmClient.Proofs.Requests.Authorization
import ElmClient.Proofs.Scope.Parameters
import ElmClient.Proofs.Tidy.Client

namespace ElmClient.Elm

open Lexer Name Run Text

/-! ### Namings of documents -/

theorem namesTidy_ofApi {config : Config} {document : Document} {api : Api} {registry : Registry}
    (registrySound : registry.Sound document.components.schemas)
    (apiSound : api.Sound document registry)
    (valid : Config.isModulePath config.namespaceName = true) :
    (Naming.ofApi config api (Client.declaredTypes api registry)).NamesTidy := by
  have none : Config.FormatsTidy { config with formats := ⟨[]⟩ } :=
    fun _ listed => absurd listed List.not_mem_nil
  have tidy : (Naming.ofApi { config with formats := ⟨[]⟩ } api
      (Client.declaredTypes api registry)).IsTidy := ofApi_tidy registrySound apiSound valid none
  exact tidy

/-! ### Authorization -/

namespace Authorization

def Contribution.headerField? : Contribution → Option String
  | .header field _ _ => some field
  | _ => none

def Contribution.queryField? : Contribution → Option String
  | .query field _ => some field
  | _ => none

def SendsKey (field entry : String) : Prop :=
  Spells entry [.opening, .comma, .read ["authorization", field], .closing]

/-- The entries of the headers and the query, with the fields that they read. -/
structure Sends (authorization : Authorization) (headers query : List String) : Prop where
  inHeaders : List.Forall₂ SendsKey headers authorization.headers
  inQuery : List.Forall₂ SendsKey query authorization.query
  /-- Every field is read by one entry. -/
  fields : (query ++ headers).Perm authorization.fields
  once : authorization.fields.Nodup

private theorem perm_fields (contributions : List Contribution) :
    (contributions.filterMap Contribution.queryField?
      ++ contributions.filterMap Contribution.headerField?).Perm
        (contributions.filterMap Contribution.field?) := by
  induction contributions with
  | nil => exact .nil
  | cons contribution rest ih =>
      cases contribution with
      | header field name lead => exact List.perm_middle.trans (ih.cons field)
      | query field key => exact ih.cons field
      | unsupported message => exact ih

private theorem sends_contributions {contributions : List Contribution}
    (small : ∀ field ∈ contributions.filterMap Contribution.field?, Small field.toList) :
    List.Forall₂ SendsKey (contributions.filterMap Contribution.headerField?)
        (contributions.filterMap Contribution.headerEntry?) ∧
      List.Forall₂ SendsKey (contributions.filterMap Contribution.queryField?)
        (contributions.filterMap Contribution.queryEntry?) := by
  induction contributions with
  | nil => exact ⟨.nil, .nil⟩
  | cons contribution rest ih =>
      cases contribution with
      | header field name lead =>
          obtain ⟨first, others⟩ := List.forall_mem_cons.mp small
          exact ⟨.cons (spells_pair name lead first) (ih others).1, (ih others).2⟩
      | query field key =>
          obtain ⟨first, others⟩ := List.forall_mem_cons.mp small
          exact ⟨(ih others).1, .cons (spells_pair key "" first) (ih others).2⟩
      | unsupported message => exact ih small

theorem ofEndpoint_sends {σ : Type} (document : Document) (endpoint : Endpoint) :
    Returns (ofEndpoint document endpoint : Run σ Authorization)
      fun authorization => ∃ headers query, authorization.Sends headers query := by
  intro scope before authorization after ended
  have small := (ofEndpoint_tidy document endpoint scope before authorization after ended).fields
  obtain ⟨contributions, made⟩ := made_of_ok ended
  rw [made.fields] at small
  obtain ⟨headers, query⟩ := sends_contributions small
  refine ⟨_, _, made.headers ▸ headers, made.query ▸ query, ?_, made.fieldsOnce⟩
  rw [made.fields]
  exact perm_fields contributions

end Authorization

/-! ### Base URLs -/

section Base

variable {naming : Naming}

def BaseUrl.reads (base : BaseUrl) : List (List String) :=
  if base.isInput then [["server"]] else []

def BaseUrl.IsCode (naming : Naming) (base : BaseUrl) : Prop :=
  Writes naming base.expression base.reads (· = [])

theorem isCode_constant (named : naming.NamesTidy) {name : String} (small : Small name.toList) :
    BaseUrl.IsCode naming (.constant (naming.qualified .servers name)) :=
  .plain (.own (spells_qualified named.valid .servers small.holdable)) rfl

theorem ofMode_isCode (named : naming.NamesTidy) (document : Document) (mode : ServerMode) :
    (ServerPlan.ofMode naming document mode).base.IsCode naming := by
  cases mode with
  | fromDocument =>
      have small := small_assign (ServerPlan.small_wantedNames 0 document.servers)
      change BaseUrl.IsCode naming (ServerPlan.ofServers naming document.servers).base
      unfold ServerPlan.ofServers
      dsimp only
      split
      case h_1 first rest same =>
        rw [same] at small
        exact isCode_constant named (small first List.mem_cons_self)
      case h_2 => exact .plain (.own (spells_stringLiteral "")) rfl
  | single url => exact isCode_constant named .fixed
  | multiple servers =>
      have read : Spells "config.server" [.read ["server"]] := .fixed
      exact .ofCode (.own read) (.read _) rfl rfl

end Base

/-! ### Entries -/

/-- What an entry of the query or the headers takes its text from. -/
inductive EntrySource where
  | parameter (field : ParameterField)
  | authorization (field : String)

namespace EntrySource

def read : EntrySource → List String
  | parameter field => field.read
  | authorization field => ["authorization", field]

def NullsTwice (naming : Naming) : EntrySource → Prop
  | parameter field => naming.NullsTwice field
  | authorization _ => False

def all (parameters : List ParameterField) (authorization : List String) : List EntrySource :=
  parameters.map parameter ++ authorization.map .authorization

variable {naming : Naming}

def Sends (naming : Naming) (source : EntrySource) (text : String) : Prop :=
  Writes naming text [source.read] (Shades (· ∈ entryVariables) (source.NullsTwice naming))

private theorem sends_authorization {field entry : String}
    (sends : Authorization.SendsKey field entry) :
    Sends naming (.authorization field) entry :=
  .ofCode (.own sends) (closed_pair (.read _)) rfl .none

private theorem sends_all {parameters : List ParameterField}
    {authorization parameterTexts entries : List String}
    (sent : List.Forall₂ (SendsField naming) parameters parameterTexts)
    (keys : List.Forall₂ Authorization.SendsKey authorization entries) :
    List.Forall₂ (Sends naming) (all parameters authorization) (parameterTexts ++ entries) := by
  refine List.rel_append ?_ ?_
  · exact List.forall₂_map_left_iff.mpr sent
  · exact List.forall₂_map_left_iff.mpr (keys.imp fun _ _ key => sends_authorization key)

theorem reads_all (parameters : List ParameterField) (authorization : List String) :
    (all parameters authorization).map read =
      parameters.map ParameterField.read ++
        authorization.map fun field => ["authorization", field] := by
  rw [all, List.map_append, List.map_map, List.map_map]
  rfl

private theorem exists_nullsTwice_all {parameters : List ParameterField}
    {authorization : List String} :
    (∃ source ∈ all parameters authorization, source.NullsTwice naming) ↔
      ∃ field ∈ parameters, naming.NullsTwice field := by
  simp [all, NullsTwice, or_and_right, exists_or]

private theorem sends_list {sources : List EntrySource} {texts : List String}
    (sends : List.Forall₂ (Sends naming) sources texts) :
    Writes naming (list texts) (sources.map read)
      (Shades (· ∈ entryVariables) (∃ source ∈ sources, source.NullsTwice naming)) := by
  have whole := Writes.list sends
  rw [← List.map_eq_flatMap] at whole
  refine whole.imp ?_
  rintro _ ⟨bounds, all, rfl⟩
  exact .flatten all

end EntrySource

/-! ### The URL -/

def urlVariables : List String :=
  "queryKey" :: "queryValue" :: entryVariables

private theorem urlVariable_of_entry {name : String} (listed : name ∈ entryVariables) :
    name ∈ urlVariables :=
  List.mem_cons_of_mem _ (List.mem_cons_of_mem _ listed)

section Expressions

variable {naming : Naming} {policy : Policy}

theorem queryExpression_writes {sources : List EntrySource} {texts : List String}
    (sends : List.Forall₂ (EntrySource.Sends naming) sources texts) :
    Writes naming (queryExpression texts) (sources.map EntrySource.read)
      (Shades (· ∈ urlVariables) (∃ source ∈ sources, source.NullsTwice naming)) := by
  obtain ⟨words, bound, code, closed, reads, shades⟩ := (EntrySource.sends_list sends).parts
  unfold queryExpression
  split
  case isTrue none =>
    obtain rfl : texts = [] := List.isEmpty_iff.mp none
    cases sends
    exact .ofCode (.own (.fixed : Spells _ [.opening, .closing])) (.group .nil) rfl
      (Shades.none.congr (by simp))
  case isFalse =>
    have pair : Closed [.opening, .lambda ["queryKey", "queryValue"], .closing]
        [⟨"queryKey", []⟩, ⟨"queryValue", []⟩] := .function ["queryKey", "queryValue"] .nil
    have own : Shades (· ∈ urlVariables) False [⟨"queryKey", []⟩, ⟨"queryValue", []⟩] :=
      ⟨by decide, by decide⟩
    have lead : Spells
        ("(List.map (\\( queryKey, queryValue ) -> Url.Builder.string queryKey queryValue) "
          ++ "(List.filterMap identity ")
        ([.opening, .opening, .lambda ["queryKey", "queryValue"], .closing] ++ [.opening]) :=
      Spells.behind [.opening, .opening, .lambda ["queryKey", "queryValue"], .closing] .fixed
    refine .ofCode ((code.lead (.comp .fixed .fixed) lead).close [.closing, .closing]) ?_ ?_
      ((own.append (shades.imp fun _ => urlVariable_of_entry)).congr (false_or _).to_iff)
    · simpa using (pair.append closed.group).group
    · simp [List.filterMap_cons, List.filterMap_append, reads]

def RequestParameters.pathFields (parameters : RequestParameters) (path : String) :
    List ParameterField :=
  (pathSegments path).flatMap parameters.segmentFields

section Parts

variable {valid : Helpers → Prop} (stores : naming.Stores valid) (named : naming.NamesTidy)
  (components : naming.CoversComponents) {parameters : RequestParameters}
  (holds : ∀ field ∈ parameters.fields, naming.HoldsField field)
  {authorization : Authorization} {headers query : List String}
  (sends : authorization.Sends headers query)

include stores named components holds sends

theorem urlExpression_writes (endpoint : Endpoint) {base : BaseUrl} (isCode : base.IsCode naming) :
    Behaves policy valid
      (urlExpression naming endpoint base authorization parameters) fun text =>
        Writes naming text
          (base.reads ++ (parameters.pathFields endpoint.path).map ParameterField.read
            ++ (EntrySource.all parameters.query query).map EntrySource.read)
          (Shades (· ∈ urlVariables)
            (∃ field ∈ parameters.pathFields endpoint.path ++ parameters.query,
              naming.NullsTwice field)) := by
  have inFields : ∀ field ∈ parameters.query, field ∈ parameters.fields := fun _ member =>
    List.mem_append_left _ (List.mem_append_right _ member)
  refine .bind (.traverseOf fun segment _ =>
    segmentExpression_sends stores named components holds segment) fun segments sent => ?_
  refine .map (.traverseOf fun field member =>
    have holdsField := holds field (inFields field member)
    pairEntry_sends stores holdsField.small named components holdsField.covers)
      fun entries paired => ?_
  have front : Writes naming ("Url.Builder.crossOrigin " ++ atom base.expression) base.reads
      (Shades (· ∈ urlVariables) False) :=
    (Writes.atom isCode).behind.imp fun _ none => none ▸ .none
  have path : Writes naming _ _ (Shades (· ∈ urlVariables) _) :=
    (sendsFields_list sent).imp fun _ shades => shades.imp fun _ => urlVariable_of_entry
  have queried := queryExpression_writes (EntrySource.sends_all paired sends.inQuery)
  refine (front.beside path (fun _ _ => Shades.append)).beside queried fun _ _ before behind => ?_
  refine (before.append behind).congr ?_
  rw [EntrySource.exists_nullsTwice_all]
  simp only [List.mem_append, or_and_right, exists_or, false_or]
  rfl

theorem headersExpression_writes :
    Behaves policy valid
      (headersExpression naming authorization parameters) fun text =>
        Writes naming text ((EntrySource.all parameters.header headers).map EntrySource.read)
          (Shades (· ∈ urlVariables) (∃ field ∈ parameters.header, naming.NullsTwice field)) := by
  have inFields : ∀ field ∈ parameters.header, field ∈ parameters.fields := fun _ member =>
    List.mem_append_right _ member
  refine .bind (.traverseOf fun field member =>
    have holdsField := holds field (inFields field member)
    pairEntry_sends stores holdsField.small named components holdsField.covers)
      fun entries paired => ?_
  have sources := EntrySource.sends_all paired sends.inHeaders
  have whole := (EntrySource.sends_list sources).imp fun _ shades =>
    (shades.congr EntrySource.exists_nullsTwice_all).imp fun _ => urlVariable_of_entry
  split
  case h_1 none =>
    rw [none] at whole
    exact .pure whole
  case h_2 => exact .pure whole.behind

end Parts

/-! ### The body -/

def bodyReads (endpoint : Endpoint) : List (List String) :=
  match endpoint.body with
  | some body => if body.payload.isEmpty then [] else [["body"]]
  | none => []

def IsNumbered (name : String) : Prop :=
  ∃ depth, name = recordVariable depth ∨ name = valueVariable depth

private theorem Numbered.shades {depth : Nat} {bound : List Binder}
    (numbered : Numbered depth bound) :
    Shades IsNumbered False bound where
  named binder listed := by
    obtain ⟨-, number, -, named⟩ := numbered binder listed
    exact ⟨number, named⟩
  hides := iff_of_false (fun ⟨binder, listed, hides⟩ => (numbered binder listed).1 hides) id

theorem ne_of_numbered {name other : String} (numbered : IsNumbered name)
    (apart : other ∉ ["rec", "val"])
    (letter : (other.toList.getLast?).any Char.isDigit = false) : name ≠ other := by
  rintro rfl
  obtain ⟨base, depth, listed, rfl⟩ :
      ∃ base depth, base ∈ ["rec", "val"] ∧ name = numberedVariable base depth := by
    obtain ⟨depth, record | value⟩ := numbered
    · exact ⟨"rec", depth, by decide, record⟩
    · exact ⟨"val", depth, by decide, value⟩
  rcases numberedVariable_eq_or_digit base depth with same | digit
  · exact apart (same.symm ▸ listed)
  · rw [letter] at digit
    contradiction

def IsBodyVariable (name : String) : Prop :=
  name = "payload" ∨ IsNumbered name

/-- A parameter around variables of the depth and greater ones. -/
def Under (parameter : String) (depth : Nat) (bound : List Binder) : Prop :=
  ∃ inside, Numbered depth inside ∧
    bound = ⟨parameter, []⟩ :: inside.map (Binder.within [parameter])

private theorem Under.shades {depth : Nat} {bound : List Binder}
    (under : Under "payload" depth bound) :
    Shades IsBodyVariable False bound := by
  obtain ⟨inside, numbered, rfl⟩ := under
  exact numbered.shades.function fun _ isNumbered =>
    ne_of_numbered isNumbered (by decide) (by decide)

section Body

variable (named : naming.NamesEncoders)

include named

theorem bodyWrapper_writes (mediaType : String) {payload : Payload}
    (names : payload.shape.Everywhere naming.NamesUnion) :
    Returns (bodyWrapper naming mediaType payload)
      fun text => Writes naming text [] (Numbered 1) := by
  have media : Code naming (stringLiteral mediaType) [] := .own (spells_stringLiteral _)
  cases payload with
  | json shape =>
      unfold bodyWrapper
      refine .bind (encoder_writes named 1 shape names) fun encode writes => ?_
      obtain ⟨words, bound, code, closed, reads, numbered⟩ := writes.atom.parts
      dsimp only
      split
      · have name : Code naming (common "JsonBody") [] := .own spells_common
        refine .pure (.ofCode ((name.beside [.opening] code).close [.closing]) ?_ ?_ numbered)
        · simpa using closed.group
        · simpa [List.filterMap_cons] using reads
      · have name : Code naming (common "StringBody") [] := .own spells_common
        refine .pure (.ofCode (((name.beside [] media).beside [.opening, .opening] code).close
          [.closing, .closing]) ?_ ?_ numbered)
        · simpa using closed.group.group
        · simpa [List.filterMap_cons] using reads
  | text =>
      have name : Code naming (common "StringBody") [] := .own spells_common
      exact .pure (.plain ((name.beside [] media).close []) (numbered_nil 1))
  | bytes =>
      have name : Code naming (common "BytesBody") [] := .own spells_common
      exact .pure (.plain ((name.beside [] media).close []) (numbered_nil 1))
  | empty => exact .pure (.plain (.own spells_common) (numbered_nil 1))

theorem presentBody_writes {body : EndpointBody}
    (names : body.payload.shape.Everywhere naming.NamesUnion) :
    Returns (presentBody naming body)
      fun text => Writes naming text [["body"]] (Under "payload" 1) := by
  unfold presentBody
  refine .bind (bodyWrapper_writes named body.mediaType names) fun wrapper writes => ?_
  obtain ⟨words, bound, code, closed, reads, numbered⟩ := writes.parts
  have function := closed.function ["payload"]
  have whole : Code naming ("(\\payload -> " ++ wrapper ++ ")") _ :=
    (code.behind [.opening, .lambda ["payload"]]).close [.closing]
  have under : Under "payload" 1 _ := ⟨bound, numbered, rfl⟩
  dsimp only
  split
  · refine .pure (.ofCode (whole.close [.read ["body"]]) ?_ ?_ under)
    · simpa using function.append (.read ["body"])
    · simp [List.filterMap_cons, List.filterMap_append, reads]
  · have empty : Code naming (common "EmptyBody") [] := .own spells_common
    refine .pure (.ofCode (((empty.behind []).beside [.opening] whole).close
      [.read ["body"], .closing]) ?_ ?_ under)
    · simpa using (function.append (.read ["body"])).group
    · simp [List.filterMap_cons, List.filterMap_append, reads]

theorem bodyExpression_under {endpoint : Endpoint}
    (names : ∀ body ∈ endpoint.body, body.payload.shape.Everywhere naming.NamesUnion) :
    Returns (bodyExpression naming endpoint)
      fun text => Writes naming text (bodyReads endpoint)
        fun bound => bound = [] ∨ Under "payload" 1 bound := by
  have empty : Writes naming (common "EmptyBody") []
      fun bound => bound = [] ∨ Under "payload" 1 bound :=
    .plain (.own spells_common) (Or.inl rfl)
  unfold bodyExpression bodyReads
  cases present : endpoint.body with
  | none => exact .pure empty
  | some body =>
      dsimp only
      split
      · exact .pure empty
      · exact (presentBody_writes named (names body present)).imp fun _ writes =>
          writes.imp fun _ => Or.inr

end Body

theorem bodyExpression_writes (named : naming.NamesTidy) {endpoint : Endpoint}
    (holds : naming.HoldsEndpoint endpoint) :
    Returns (bodyExpression naming endpoint)
      fun text => Writes naming text (bodyReads endpoint) (Shades IsBodyVariable False) := by
  have names : ∀ body ∈ endpoint.body, body.payload.shape.Everywhere naming.NamesUnion :=
    fun body present => named.namesUnions (holds.body body present)
  refine (bodyExpression_under named.namesEncoders names).imp fun text writes => writes.imp ?_
  rintro bound (rfl | under)
  · exact .none
  · exact under.shades

end Expressions

end ElmClient.Elm
