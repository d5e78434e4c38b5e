/-
What security schemes add to a request. The schemes in effect are treated one after the other;
each that is supported takes a field of its own and gives one entry, which reads that field,
and each that is not leaves one warning. No header is set twice.
-/

import ElmClient.Proofs.Lexing.Words
import ElmClient.Proofs.Shape.Contributions
import ElmClient.Proofs.Tidy.Requests

namespace ElmClient

namespace Run

variable {σ α β : Type}

def told (scope : Scope) (messages : List String) (log : Log σ) : Log σ :=
  { log with warnings := log.warnings ++ messages.map fun message => ⟨scope.path, message⟩ }

/-- The run ends with the value and does nothing but warn; where a warning is fatal, it fails. -/
def Tells (action : Run σ α) (value : α) (messages : List String) : Prop :=
  ∀ scope log, if scope.policy = .failOnUnsupported ∧ messages ≠ [] then
      (action.outcome scope log).1.isOk = false
    else action.outcome scope log = (.ok value, told scope messages log)

/-- The run fails under every policy. -/
def Fails (action : Run σ α) : Prop :=
  ∀ scope log, (action.outcome scope log).1.isOk = false

private theorem isOk_bind_of_fails {action : Run σ α} {next : α → Run σ β} {scope : Scope}
    {log : Log σ}
    (fails : (action.outcome scope log).1.isOk = false) :
    ((action >>= next).outcome scope log).1.isOk = false := by
  rw [outcome_bind]
  cases ended : action.outcome scope log with
  | mk outcome reached =>
      rw [ended] at fails
      cases outcome with
      | ok => contradiction
      | error => rfl

namespace Tells

theorem pure (value : α) : Tells (Pure.pure value : Run σ α) value [] := by
  intro scope log
  rw [if_neg fun strict => strict.2 rfl]
  simp [told, outcome_pure]

theorem placeholderOr (message : String) (placeholder : α) :
    Tells (Run.placeholderOr message placeholder : Run σ α) placeholder [message] := by
  intro scope log
  rw [outcome_placeholderOr]
  cases scope.policy <;> simp [told, Log.warn, Except.isOk, Except.toBool]

theorem bind {action : Run σ α} {next : α → Run σ β} {value : α} {result : β}
    {messages later : List String} (head : Tells action value messages)
    (tail : Tells (next value) result later) :
    Tells (action >>= next) result (messages ++ later) := by
  intro scope log
  have first := head scope log
  have second := tail scope (told scope messages log)
  by_cases silent : messages = []
  · rw [if_neg fun strict => strict.2 silent] at first
    rw [outcome_bind, first, silent, List.nil_append]
    rw [silent] at second
    simpa [told] using second
  · by_cases strict : scope.policy = .failOnUnsupported
    · rw [if_pos ⟨strict, silent⟩] at first
      rw [if_pos ⟨strict, by simp [silent]⟩]
      exact isOk_bind_of_fails first
    · rw [if_neg fun both => strict both.1] at first second
      rw [if_neg fun both => strict both.1, outcome_bind, first]
      refine second.trans ?_
      simp [told]

theorem fails {action : Run σ α} {next : α → Run σ β} {value : α} {messages : List String}
    (head : Tells action value messages) (tail : Fails (next value)) :
    Fails (action >>= next) := by
  intro scope log
  have first := head scope log
  split at first
  · exact isOk_bind_of_fails first
  · rw [outcome_bind, first]
    exact tail scope _

end Tells

private theorem Fails.fail (message : String) : Fails (Run.fail message : Run σ α) :=
  fun _ _ => rfl

private theorem Fails.bind {action : Run σ α} (fails : Fails action) (next : α → Run σ β) :
    Fails (action >>= next) :=
  fun scope log => isOk_bind_of_fails (fails scope log)

end Run

namespace Elm.Authorization

open Run Lexer Text

/-! ### Schemes in effect -/

def firstNames : Option (List SecurityRequirement) → List String
  | some (first :: _) => Keyed.keys first
  | _ => []

/-- The schemes of the first requirement of the operation and of that of the document. -/
def considered (document : Document) (endpoint : Endpoint) : List String :=
  match endpoint.security with
  | some [] => []
  | own => (firstNames own ++ firstNames document.security).eraseDups

def alternativesOf (level : String) : Option (List SecurityRequirement) → List String
  | some requirements =>
      if requirements.length > 1 then
        [level ++ " declares " ++ toString requirements.length
          ++ " alternative security requirements; only the first is used"]
      else []
  | none => []

def alternatives (document : Document) (endpoint : Endpoint) : List String :=
  match endpoint.security with
  | some [] => []
  | own => alternativesOf "operation" own ++ alternativesOf "document" document.security

private theorem eraseDups_append_singleton {found : List String} {name : String}
    (rest : List String)
    (member : name ∈ found) : (found ++ name :: rest).eraseDups = (found ++ rest).eraseDups := by
  rw [List.eraseDups_append, List.eraseDups_append, List.cons_removeAll,
    List.contains_iff_mem.mpr member, if_neg Bool.false_ne_true.symm]

theorem distinct_eq (names : List String) : distinct names = names.eraseDups := by
  have collected (names found : List String) (once : found.Nodup) :
      names.foldl (fun found name => if found.contains name then found else found ++ [name]) found =
        (found ++ names).eraseDups := by
    induction names generalizing found with
    | nil =>
        rw [List.append_nil]
        exact (Field.eraseDups_of_nodup once).symm
    | cons name rest ih =>
        rw [List.foldl_cons]
        by_cases member : name ∈ found
        · rw [if_pos (List.contains_iff_mem.mpr member), ih found once,
            eraseDups_append_singleton rest member]
        · rw [if_neg fun contained => member (List.contains_iff_mem.mp contained), ih]
          · rw [List.append_assoc, List.singleton_append]
          · exact List.nodup_append'.mpr ⟨once, List.nodup_singleton name, by simpa using member⟩
  exact collected names [] List.nodup_nil

private theorem nodup_eraseDups (names : List String) : names.eraseDups.Nodup := by
  have collected (names found : List String) (once : found.Nodup) :
      (names.foldl (fun found name => if found.contains name then found else found ++ [name])
        found).Nodup := by
    induction names generalizing found with
    | nil => exact once
    | cons name rest ih =>
        rw [List.foldl_cons]
        refine ih _ ?_
        split
        case isTrue => exact once
        case isFalse fresh =>
          refine List.nodup_append'.mpr ⟨once, List.nodup_singleton name, ?_⟩
          simpa using fresh
  rw [← distinct_eq]
  exact collected names [] List.nodup_nil

variable {σ : Type}

theorem levelNames_tells (level : String) (requirements : Option (List SecurityRequirement)) :
    Tells (levelNames level requirements : Run σ (List String)) (firstNames requirements)
      (alternativesOf level requirements) := by
  cases requirements with
  | none => exact .pure []
  | some requirements =>
      unfold levelNames firstRequirement alternativesOf
      cases requirements with
      | nil => exact .pure []
      | cons first rest =>
          dsimp only
          split
          · exact .bind (.placeholderOr _ ()) (.pure (Keyed.keys first))
          · exact .pure (Keyed.keys first)

private theorem ownNames_tells (document : Document) (own : Option (List SecurityRequirement)) :
    Tells (do
        let ownNames ← levelNames "operation" own
        let sharedNames ← levelNames "document" document.security
        return distinct (ownNames ++ sharedNames) : Run σ (List String))
      (firstNames own ++ firstNames document.security).eraseDups
      (alternativesOf "operation" own ++ alternativesOf "document" document.security) := by
  rw [← distinct_eq, ← List.append_nil (alternativesOf "document" _)]
  exact (levelNames_tells "operation" own).bind ((levelNames_tells "document" _).bind (.pure _))

theorem schemeNames_tells (document : Document) (endpoint : Endpoint) :
    Tells (schemeNames document endpoint : Run σ (List String)) (considered document endpoint)
      (alternatives document endpoint) := by
  unfold schemeNames considered alternatives
  rcases endpoint.security with _ | _ | ⟨first, rest⟩
  · exact ownNames_tells document none
  · exact .pure []
  · exact ownNames_tells document (some (first :: rest))

/-! ### One scheme -/

/-- Where the text of a scheme goes; there is no place for a key without a name. -/
def placementOf? (scheme : SecurityScheme) : Option Placement :=
  match scheme.kind, scheme.location with
  | "apiKey", some "header" => scheme.name.map fun key => .header key ""
  | "apiKey", some "query" => scheme.name.map .query
  | "http", _ => some (httpPlacement scheme.scheme)
  | _, _ => some .unsupported

/-- Keys in a header or in the query, and all kinds of HTTP authorization but the basic one. -/
def Supported (scheme : SecurityScheme) : Prop :=
  (scheme.kind = "apiKey" ∧ (scheme.location = some "header" ∨ scheme.location = some "query")) ∨
    (scheme.kind = "http" ∧ ∃ text, scheme.scheme = some text ∧ trim text ≠ "" ∧
      equalIgnoringCase (trim text) "basic" = false)

theorem httpPlacement_unsupported_iff {kind : Option String} :
    httpPlacement kind = .unsupported ↔
      ¬ ∃ text, kind = some text ∧ trim text ≠ "" ∧
        equalIgnoringCase (trim text) "basic" = false := by
  cases kind with
  | none => simp [httpPlacement]
  | some text =>
      have apart : equalIgnoringCase (trim text) "bearer" = true →
          trim text ≠ "" ∧ equalIgnoringCase (trim text) "basic" = false := by
        intro same
        have lowered : lower (trim text) = lower "bearer" := eq_of_beq same
        refine ⟨fun empty => ?_, ?_⟩
        · rw [empty] at lowered
          exact absurd lowered (by decide)
        · rw [equalIgnoringCase, lowered]
          decide
      simp only [httpPlacement, Option.map_some, Option.some.injEq, exists_eq_left']
      split
      case isTrue same => simp [apart same]
      case isFalse =>
        split
        case isTrue plain =>
          refine iff_of_true rfl fun supported => ?_
          simp [supported.1, supported.2] at plain
        case isFalse other =>
          refine iff_of_false nofun (not_not.mpr ?_)
          simpa [and_comm] using other

private theorem placementOf?_unsupported_iff {scheme : SecurityScheme} :
    placementOf? scheme = some .unsupported ↔ ¬ Supported scheme := by
  obtain ⟨kind, key, location, http, _, _⟩ := scheme
  unfold placementOf? Supported
  dsimp only
  split
  · cases key <;> simp
  · cases key <;> simp
  · simp [httpPlacement_unsupported_iff]
  case h_4 header query http => grind

theorem placement_eq (name : String) (scheme : SecurityScheme) :
    (placement name scheme : Run σ Placement) =
      match placementOf? scheme with
      | some found => pure found
      | none => Run.fail ("apiKey scheme `" ++ name ++ "` has no `name`") := by
  obtain ⟨kind, key, location, http, _, _⟩ := scheme
  unfold placement placementOf? keyName
  dsimp only
  split
  · cases key <;> rfl
  · cases key <;> rfl
  · rfl
  case h_4 header query http =>
    split <;> simp_all

def placed? (document : Document) (name : String) : Option Placement :=
  (Keyed.find? name document.components.securitySchemes).bind placementOf?

/-- What one scheme adds to a request. -/
inductive Contribution where
  /-- A field, and a header in which it stands behind a lead. -/
  | header (field name lead : String)
  | query (field key : String)
  | unsupported (message : String)

namespace Contribution

def field? : Contribution → Option String
  | header field _ _ | query field _ => some field
  | unsupported _ => none

def headerName? : Contribution → Option String
  | header _ name _ => some name
  | _ => none

def headerEntry? : Contribution → Option String
  | header field name lead => some (pair name lead field)
  | _ => none

def queryEntry? : Contribution → Option String
  | query field key => some (pair key "" field)
  | _ => none

def message? : Contribution → Option String
  | unsupported message => some message
  | _ => none

end Contribution

def unsupportedMessage (name : String) (scheme : SecurityScheme) : String :=
  "security scheme `" ++ name ++ "` (" ++ describe scheme ++ ") is not supported"

def messageOf? (document : Document) (name : String) : Option String :=
  (Keyed.find? name document.components.securitySchemes).bind fun scheme =>
    if placementOf? scheme = some .unsupported then some (unsupportedMessage name scheme) else none

/-- The contribution of the scheme with the name, as far as the document decides it. -/
inductive Contributes (document : Document) (name : String) : Contribution → Prop
  | header {scheme : SecurityScheme} {field header lead : String}
      (found : Keyed.find? name document.components.securitySchemes = some scheme)
      (goes : placementOf? scheme = some (.header header lead)) :
      Contributes document name (.header field header lead)
  | query {scheme : SecurityScheme} {field key : String}
      (found : Keyed.find? name document.components.securitySchemes = some scheme)
      (goes : placementOf? scheme = some (.query key)) :
      Contributes document name (.query field key)
  | unsupported {scheme : SecurityScheme}
      (found : Keyed.find? name document.components.securitySchemes = some scheme)
      (goes : placementOf? scheme = some .unsupported) :
      Contributes document name (.unsupported (unsupportedMessage name scheme))

/-- The progress behind schemes of the names, with what each contributed. -/
structure Progress.Gathers (document : Document) (names : List String)
    (contributions : List Contribution) (progress : Progress) : Prop where
  each : List.Forall₂ (Contributes document) names contributions
  fields : progress.authorization.fields = contributions.filterMap Contribution.field?
  headers : progress.authorization.headers = contributions.filterMap Contribution.headerEntry?
  query : progress.authorization.query = contributions.filterMap Contribution.queryEntry?
  owners : Keyed.keys progress.headerOwners =
    (contributions.filterMap Contribution.headerName?).map lower
  fieldsOnce : (contributions.filterMap Contribution.field?).Nodup
  headersOnce : ((contributions.filterMap Contribution.headerName?).map lower).Nodup

def Placement.header? : Placement → Option String
  | .header name _ => some name
  | _ => none

private theorem filterMap_append_singleton {α β : Type} (pick : α → Option β) (items : List α)
    (item : α) :
    (items ++ [item]).filterMap pick = items.filterMap pick ++ (pick item).toList := by
  rw [List.filterMap_append]
  cases picked : pick item <;> simp [picked]

private theorem nodup_append_toList {α : Type} {items : List α} (once : items.Nodup)
    {item : Option α}
    (fresh : ∀ value ∈ item, value ∉ items) : (items ++ item.toList).Nodup := by
  cases item with
  | none => simpa using once
  | some value =>
      exact List.nodup_append'.mpr ⟨once, List.nodup_singleton value, by simpa using fresh⟩

private theorem Progress.Gathers.extend {document : Document} {names : List String}
    {contributions : List Contribution} {progress later : Progress}
    (gathers : progress.Gathers document names contributions) {name : String}
    {contribution : Contribution} (step : Contributes document name contribution)
    (freshField : ∀ field ∈ contribution.field?, field ∉ progress.authorization.fields)
    (freshHeader : ∀ header ∈ contribution.headerName?,
      lower header ∉ Keyed.keys progress.headerOwners)
    (fields : later.authorization.fields =
      progress.authorization.fields ++ contribution.field?.toList)
    (headers : later.authorization.headers =
      progress.authorization.headers ++ contribution.headerEntry?.toList)
    (query : later.authorization.query =
      progress.authorization.query ++ contribution.queryEntry?.toList)
    (owners : Keyed.keys later.headerOwners =
      Keyed.keys progress.headerOwners ++ (contribution.headerName?.map lower).toList) :
    later.Gathers document (names ++ [name]) (contributions ++ [contribution]) := by
  have lowered : ∀ header ∈ contribution.headerName?.map lower,
      header ∉ Keyed.keys progress.headerOwners := by
    intro header member
    obtain ⟨raw, present, rfl⟩ := Option.map_eq_some_iff.mp member
    exact freshHeader raw present
  have ownersStep : Keyed.keys later.headerOwners =
      ((contributions ++ [contribution]).filterMap Contribution.headerName?).map lower := by
    rw [owners, gathers.owners, filterMap_append_singleton, List.map_append]
    cases contribution.headerName? <;> rfl
  refine ⟨List.rel_append gathers.each (.cons step .nil), ?_, ?_, ?_, ownersStep, ?_, ?_⟩
  · rw [fields, gathers.fields, filterMap_append_singleton]
  · rw [headers, gathers.headers, filterMap_append_singleton]
  · rw [query, gathers.query, filterMap_append_singleton]
  · rw [filterMap_append_singleton]
    exact nodup_append_toList gathers.fieldsOnce (gathers.fields ▸ freshField)
  · rw [← ownersStep, owners]
    exact nodup_append_toList (gathers.owners ▸ gathers.headersOnce) lowered

def freshField (progress : Progress) (name : String) : String :=
  Fresh.unused Fresh.appendNumber progress.authorization.fields (Name.toValueName name)

private theorem freshField_not_mem (progress : Progress) (name : String) :
    freshField progress name ∉ progress.authorization.fields :=
  Fresh.unused_not_mem Fresh.appendNumber_injective _ _

def Placement.headerKey? : Placement → Option String
  | .header name _ => some (lower name)
  | _ => none

def Progress.withHeader (progress : Progress) (name field header lead : String) : Progress where
  authorization :=
    { progress.authorization with
      fields := progress.authorization.fields ++ [field]
      headers := progress.authorization.headers ++ [pair header lead field] }
  headerOwners := progress.headerOwners ++ [(lower header, name)]

theorem addHeader_unset {progress : Progress} {name field header lead : String}
    (unset : Keyed.find? (lower header) progress.headerOwners = none) :
    (addHeader progress name field header lead : Run σ Progress) =
      pure (progress.withHeader name field header lead) := by
  unfold addHeader
  dsimp only
  rw [unset]
  rfl

def settle (progress : Progress) (name : String) (scheme : SecurityScheme) :
    Placement → Run σ Progress
  | .header header lead => addHeader progress name (freshField progress name) header lead
  | .query key => return addQuery progress (freshField progress name) key
  | .unsupported =>
      Run.placeholderOr
        ("security scheme `" ++ name ++ "` (" ++ describe scheme ++ ") is not supported") progress

theorem addScheme_eq {document : Document} {progress : Progress} {name : String}
    {scheme : SecurityScheme} {goes : Placement}
    (found : Keyed.find? name document.components.securitySchemes = some scheme)
    (placed : placementOf? scheme = some goes) :
    (addScheme document progress name : Run σ Progress) = settle progress name scheme goes := by
  unfold addScheme
  rw [found]
  dsimp only
  rw [placement_eq, placed]
  cases goes <;> rfl

theorem addScheme_tells {document : Document} {names : List String}
    {contributions : List Contribution} {progress : Progress}
    (gathers : progress.Gathers document names contributions) {name : String}
    {placement : Placement} (goes : placed? document name = some placement)
    (fresh : ∀ key ∈ placement.headerKey?, key ∉ Keyed.keys progress.headerOwners) :
    ∃ contribution later,
      contribution.headerName?.map lower = placement.headerKey? ∧
      later.Gathers document (names ++ [name]) (contributions ++ [contribution]) ∧
      Tells (addScheme document progress name : Run σ Progress) later
        contribution.message?.toList := by
  obtain ⟨scheme, found, goes⟩ := Option.bind_eq_some_iff.mp goes
  rw [addScheme_eq found goes]
  cases placement with
  | header header lead =>
      have unset : Keyed.find? (lower header) progress.headerOwners = none :=
        Keyed.find?_eq_none_iff.mpr (fresh _ rfl)
      refine ⟨.header (freshField progress name) header lead,
        progress.withHeader name (freshField progress name) header lead, rfl, ?_, ?_⟩
      · refine gathers.extend (.header found goes) ?_ ?_ rfl rfl (List.append_nil _).symm ?_
        · rintro _ ⟨⟩
          exact freshField_not_mem progress name
        · rintro _ ⟨⟩
          exact fresh _ rfl
        · exact List.map_append
      · rw [settle, addHeader_unset unset]
        exact .pure _
  | query key =>
      refine ⟨.query (freshField progress name) key, _, rfl, ?_, .pure _⟩
      refine gathers.extend (.query found goes) ?_ nofun rfl (List.append_nil _).symm rfl
        (List.append_nil _).symm
      rintro _ ⟨⟩
      exact freshField_not_mem progress name
  | unsupported =>
      refine ⟨.unsupported _, progress, rfl, ?_, .placeholderOr _ _⟩
      exact gathers.extend (.unsupported found goes) nofun nofun (List.append_nil _).symm
        (List.append_nil _).symm (List.append_nil _).symm (List.append_nil _).symm

theorem addScheme_fails {document : Document} {progress : Progress} {name : String}
    (refused : ∀ placement, placed? document name = some placement →
      ∃ key ∈ placement.headerKey?, key ∈ Keyed.keys progress.headerOwners) :
    Fails (addScheme document progress name : Run σ Progress) := by
  unfold addScheme
  split
  case h_1 => exact .fail _
  case h_2 scheme found =>
    dsimp only
    rw [placement_eq]
    cases goes : placementOf? scheme with
    | none => exact Fails.bind (.fail _) _
    | some placement =>
        have same : placed? document name = some placement := by rw [placed?, found]; exact goes
        obtain ⟨key, sets, taken⟩ := refused placement same
        cases placement with
        | header header lead =>
            obtain rfl := Option.some.inj sets
            obtain ⟨owner, set⟩ := Option.ne_none_iff_exists'.mp fun unset =>
              Keyed.find?_eq_none_iff.mp unset taken
            refine Tells.fails (.pure _) ?_
            unfold addHeader
            dsimp only
            rw [set]
            exact .fail _
        | query => cases sets
        | unsupported => cases sets

/-! ### All schemes -/

def headerKeys (document : Document) (names : List String) : List String :=
  names.filterMap fun name => (placed? document name).bind Placement.headerKey?

/-- All schemes have a place, and no header is set twice, nor set already. -/
structure Acceptable (document : Document) (taken names : List String) : Prop where
  placed : ∀ name ∈ names, ∃ placement, placed? document name = some placement
  once : (taken ++ headerKeys document names).Nodup

private theorem acceptable_cons_iff {document : Document} {taken rest : List String} {name : String}
    {placement : Placement} (goes : placed? document name = some placement) :
    Acceptable document taken (name :: rest) ↔
      Acceptable document (taken ++ placement.headerKey?.toList) rest := by
  have keys : headerKeys document (name :: rest) =
      placement.headerKey?.toList ++ headerKeys document rest := by
    rw [headerKeys, List.filterMap_cons, goes, Option.bind_some]
    cases placement.headerKey? <;> rfl
  constructor
  · rintro ⟨placed, once⟩
    exact ⟨(List.forall_mem_cons.mp placed).2, by rwa [List.append_assoc, ← keys]⟩
  · rintro ⟨placed, once⟩
    exact ⟨List.forall_mem_cons.mpr ⟨⟨placement, goes⟩, placed⟩, by
      rwa [List.append_assoc, ← keys] at once⟩

theorem Progress.Gathers.keys_extend {document : Document} {names : List String}
    {contributions : List Contribution} {progress later : Progress} {name : String}
    {contribution : Contribution} {placement : Placement}
    (gathers : progress.Gathers document names contributions)
    (gathered : later.Gathers document (names ++ [name]) (contributions ++ [contribution]))
    (sets : contribution.headerName?.map lower = placement.headerKey?) :
    Keyed.keys later.headerOwners =
      Keyed.keys progress.headerOwners ++ placement.headerKey?.toList := by
  rw [gathered.owners, gathers.owners, filterMap_append_singleton, List.map_append, ← sets]
  cases contribution.headerName? <;> rfl

theorem addSchemes_tells {document : Document} {names rest : List String}
    {contributions : List Contribution} {progress : Progress}
    (gathers : progress.Gathers document names contributions)
    (acceptable : Acceptable document (Keyed.keys progress.headerOwners) rest) :
    ∃ more later, later.Gathers document (names ++ rest) (contributions ++ more) ∧
      Tells (addSchemes document progress rest : Run σ Progress) later
        (more.filterMap Contribution.message?) := by
  induction rest generalizing names contributions progress with
  | nil =>
      refine ⟨[], progress, ?_, .pure progress⟩
      rwa [List.append_nil, List.append_nil]
  | cons name rest ih =>
      obtain ⟨placement, goes⟩ := acceptable.placed name List.mem_cons_self
      have others := (acceptable_cons_iff goes).mp acceptable
      have fresh : ∀ key ∈ placement.headerKey?, key ∉ Keyed.keys progress.headerOwners := by
        intro key sets taken
        have once := (List.nodup_append'.mp others.once).1
        exact (List.nodup_append'.mp once).2.2 taken (Option.mem_toList.mpr sets)
      obtain ⟨contribution, middle, sets, gathered, first⟩ :=
        addScheme_tells (σ := σ) gathers goes fresh
      rw [← gathers.keys_extend gathered sets] at others
      obtain ⟨more, later, complete, tells⟩ := ih gathered others
      refine ⟨contribution :: more, later, ?_, ?_⟩
      · rw [List.append_assoc, List.append_assoc] at complete
        exact complete
      · have messages : (contribution :: more).filterMap Contribution.message? =
            contribution.message?.toList ++ more.filterMap Contribution.message? := by
          rw [List.filterMap_cons]
          cases contribution.message? <;> rfl
        rw [messages]
        exact first.bind tells

theorem addSchemes_fails {document : Document} {names rest : List String}
    {contributions : List Contribution} {progress : Progress}
    (gathers : progress.Gathers document names contributions)
    (refused : ¬ Acceptable document (Keyed.keys progress.headerOwners) rest) :
    Fails (addSchemes document progress rest : Run σ Progress) := by
  induction rest generalizing names contributions progress with
  | nil =>
      refine absurd ⟨nofun, ?_⟩ refused
      rw [headerKeys, List.filterMap_nil, List.append_nil, gathers.owners]
      exact gathers.headersOnce
  | cons name rest ih =>
      by_cases settled : ∃ placement, placed? document name = some placement ∧
          ∀ key ∈ placement.headerKey?, key ∉ Keyed.keys progress.headerOwners
      · obtain ⟨placement, goes, fresh⟩ := settled
        obtain ⟨contribution, middle, sets, gathered, first⟩ :=
          addScheme_tells (σ := σ) gathers goes fresh
        refine first.fails (ih gathered ?_)
        rw [gathers.keys_extend gathered sets, ← acceptable_cons_iff goes]
        exact refused
      · refine (addScheme_fails fun placement goes => ?_).bind _
        by_contra unset
        exact settled ⟨placement, goes, fun key sets taken => unset ⟨key, sets, taken⟩⟩

theorem spells_pair (key lead : String) {field : String} (small : Name.Small field.toList) :
    Spells (pair key lead field)
      [.opening, .comma, .read ["authorization", field], .closing] := by
  have token : Spells ("config.authorization." ++ field) [.read ["authorization", field]] :=
    spells_configField "authorization".toList rfl small
  have value : Spells (if lead.isEmpty then "config.authorization." ++ field
      else stringLiteral lead ++ " ++ " ++ ("config.authorization." ++ field))
      [.read ["authorization", field]] := by
    split
    · exact token
    · exact (spells_stringLiteral lead).beside [] token
  exact (((spells_stringLiteral key).behind [.opening]).beside [.comma] value).close [.closing]

private theorem Contributes.supported {document : Document} {name : String}
    {contribution : Contribution}
    (contributes : Contributes document name contribution) :
    ∃ scheme, Keyed.find? name document.components.securitySchemes = some scheme ∧
      (Supported scheme ↔ contribution.message? = none) := by
  cases contributes with
  | header found goes =>
      refine ⟨_, found, iff_of_true ?_ rfl⟩
      exact not_not.mp fun other => by simp [placementOf?_unsupported_iff.mpr other] at goes
  | query found goes =>
      refine ⟨_, found, iff_of_true ?_ rfl⟩
      exact not_not.mp fun other => by simp [placementOf?_unsupported_iff.mpr other] at goes
  | unsupported found goes =>
      exact ⟨_, found, iff_of_false (placementOf?_unsupported_iff.mp goes) nofun⟩

/-! ### The whole authorization -/

private theorem gathers_starting (document : Document) :
    Progress.starting.Gathers document [] [] where
  each := .nil
  fields := rfl
  headers := rfl
  query := rfl
  owners := rfl
  fieldsOnce := List.nodup_nil
  headersOnce := List.nodup_nil

def headerNames (document : Document) (endpoint : Endpoint) : List String :=
  (considered document endpoint).filterMap fun name =>
    (placed? document name).bind Placement.header?

private theorem headerKeys_considered (document : Document) (endpoint : Endpoint) :
    headerKeys document (considered document endpoint) =
      (headerNames document endpoint).map lower := by
  rw [headerNames, List.map_filterMap]
  refine List.filterMap_congr fun name _ => ?_
  cases placed? document name with
  | none => rfl
  | some placement => cases placement <;> rfl

private theorem nodup_lower_iff {names : List String} :
    (names.map lower).Nodup ↔
      names.Pairwise fun first second => equalIgnoringCase first second = false := by
  rw [List.Nodup, List.pairwise_map]
  exact ⟨.imp beq_eq_false_iff_ne.mpr, .imp beq_eq_false_iff_ne.mp⟩

/-- Every scheme in effect has a place, and no two set one header. -/
structure Settled (document : Document) (endpoint : Endpoint) : Prop where
  placed : ∀ name ∈ considered document endpoint,
    ∃ placement, placed? document name = some placement
  headersApart : (headerNames document endpoint).Pairwise
    fun first second => equalIgnoringCase first second = false

private theorem settled_iff {document : Document} {endpoint : Endpoint} :
    Settled document endpoint ↔ Acceptable document [] (considered document endpoint) := by
  have once : (headerKeys document (considered document endpoint)).Nodup ↔ _ :=
    headerKeys_considered document endpoint ▸ nodup_lower_iff
  exact ⟨fun settled => ⟨settled.placed, once.mpr settled.headersApart⟩,
    fun acceptable => ⟨acceptable.placed, once.mp acceptable.once⟩⟩

def said (document : Document) (endpoint : Endpoint) : List String :=
  alternatives document endpoint ++ (considered document endpoint).filterMap (messageOf? document)

private theorem Contributes.message {document : Document} {name : String}
    {contribution : Contribution}
    (contributes : Contributes document name contribution) :
    contribution.message? = messageOf? document name := by
  cases contributes with
  | header found goes => simp [Contribution.message?, messageOf?, found, goes]
  | query found goes => simp [Contribution.message?, messageOf?, found, goes]
  | unsupported found goes => simp [Contribution.message?, messageOf?, found, goes]

private theorem messages_eq {document : Document} {names : List String}
    {contributions : List Contribution}
    (each : List.Forall₂ (Contributes document) names contributions) :
    contributions.filterMap Contribution.message? = names.filterMap (messageOf? document) := by
  induction each with
  | nil => rfl
  | cons first _ ih => rw [List.filterMap_cons, List.filterMap_cons, first.message, ih]

/-- What the schemes in effect add to a request: contributions that keep fields, headers and
query in step. -/
structure Made {σ : Type} (document : Document) (endpoint : Endpoint) (scope : Scope)
    (before : Log σ) (contributions : List Contribution) (authorization : Authorization)
    (after : Log σ) : Prop where
  once : (considered document endpoint).Nodup
  /-- One contribution for every scheme in effect, in order. -/
  each : List.Forall₂ (Contributes document) (considered document endpoint) contributions
  supported : List.Forall₂
    (fun name contribution =>
      ∃ scheme, Keyed.find? name document.components.securitySchemes = some scheme ∧
        (Supported scheme ↔ Contribution.message? contribution = none))
    (considered document endpoint) contributions
  fields : authorization.fields = contributions.filterMap Contribution.field?
  headers : authorization.headers = contributions.filterMap Contribution.headerEntry?
  query : authorization.query = contributions.filterMap Contribution.queryEntry?
  /-- An entry reads the field of its contribution. -/
  reads : ∀ contribution ∈ contributions, ∀ entry,
    entry ∈ contribution.headerEntry? ∨ entry ∈ contribution.queryEntry? →
      ∃ field ∈ contribution.field?,
        (wordsOf entry).filterMap Word.field? = [["authorization", field]]
  fieldsOnce : authorization.fields.Nodup
  headersApart : (contributions.filterMap Contribution.headerName?).Pairwise
    fun first second => equalIgnoringCase first second = false
  log : after = told (scope.below "security") (said document endpoint) before
  /-- The strict policy allows no message. -/
  strict : scope.policy = .failOnUnsupported → said document endpoint = []

section Whole

variable {document : Document} {endpoint : Endpoint}

theorem ofEndpoint_tells (settled : Settled document endpoint) :
    ∃ (contributions : List Contribution) (progress : Progress),
      progress.Gathers document (considered document endpoint) contributions ∧
      Tells (do
          let names ← schemeNames document endpoint
          return (← addSchemes document Progress.starting names).authorization :
            Run σ Authorization)
        progress.authorization (said document endpoint) := by
  obtain ⟨contributions, progress, gathers, tells⟩ :=
    addSchemes_tells (σ := σ) (gathers_starting document) (settled_iff.mp settled)
  refine ⟨contributions, progress, gathers, (schemeNames_tells document endpoint).bind ?_⟩
  have messages : contributions.filterMap Contribution.message? = _ := messages_eq gathers.each
  rw [List.nil_append] at messages
  rw [← messages, ← List.append_nil (contributions.filterMap _)]
  exact tells.bind (.pure _)

theorem ofEndpoint_fails (unsettled : ¬ Settled document endpoint) :
    Fails (ofEndpoint document endpoint : Run σ Authorization) := by
  intro scope log
  have refused := settled_iff.not.mp unsettled
  refine (schemeNames_tells document endpoint).fails ?_ (scope.below "security") log
  exact (addSchemes_fails (gathers_starting document) refused).bind _

private theorem made_of_gathers {contributions : List Contribution} {progress : Progress}
    (gathers : progress.Gathers document (considered document endpoint) contributions)
    (small : ∀ field ∈ progress.authorization.fields, Name.Small field.toList) {scope : Scope}
    (strict : scope.policy = .failOnUnsupported → said document endpoint = [])
    (before : Log σ) :
    Made document endpoint scope before contributions progress.authorization
      (told (scope.below "security") (said document endpoint) before) where
  once := by
    unfold considered
    split
    · exact List.nodup_nil
    · exact nodup_eraseDups _
  each := gathers.each
  supported := gathers.each.imp fun _ _ contributes => contributes.supported
  fields := gathers.fields
  headers := gathers.headers
  query := gathers.query
  reads := by
    intro contribution listed entry gives
    have smallField : ∀ field ∈ contribution.field?, Name.Small field.toList := fun field present =>
      small field (gathers.fields ▸ List.mem_filterMap.mpr ⟨contribution, listed, present⟩)
    cases contribution with
    | header field name lead =>
        obtain rfl := Option.some.inj (gives.resolve_right nofun)
        refine ⟨field, rfl, ?_⟩
        rw [(spells_pair name lead (smallField field rfl)).wordsOf]
        rfl
    | query field key =>
        obtain rfl := Option.some.inj (gives.resolve_left nofun)
        refine ⟨field, rfl, ?_⟩
        rw [(spells_pair key "" (smallField field rfl)).wordsOf]
        rfl
    | unsupported =>
        exact absurd gives (by simp [Contribution.headerEntry?, Contribution.queryEntry?])
  fieldsOnce := gathers.fields ▸ gathers.fieldsOnce
  headersApart := nodup_lower_iff.mp gathers.headersOnce
  log := rfl
  strict := strict

theorem ofEndpoint_isOk_iff (settled : Settled document endpoint) {scope : Scope}
    {before : Log σ} :
    ((ofEndpoint document endpoint).outcome scope before).1.isOk = true ↔
      (scope.policy = .failOnUnsupported → said document endpoint = []) := by
  obtain ⟨contributions, progress, gathers, tells⟩ := ofEndpoint_tells (σ := σ) settled
  have ends := tells (scope.below "security") before
  split at ends
  case isTrue silenced =>
    refine iff_of_false (fun succeeded => ?_) fun silent => silenced.2 (silent silenced.1)
    exact Bool.false_ne_true (ends.symm.trans succeeded)
  case isFalse free =>
    refine iff_of_true ?_ fun strict => not_not.mp fun loud => free ⟨strict, loud⟩
    exact congrArg (fun ended => Except.isOk (Prod.fst ended)) ends

private theorem made_of_ended (settled : Settled document endpoint) {scope : Scope}
    {before after : Log σ}
    {authorization : Authorization}
    (ended : (ofEndpoint document endpoint).outcome scope before = (.ok authorization, after)) :
    ∃ contributions, Made document endpoint scope before contributions authorization after := by
  have small := ofEndpoint_tidy document endpoint scope before authorization after ended
  have succeeded : ((ofEndpoint document endpoint).outcome scope before).1.isOk = true := by
    rw [ended]
    rfl
  have silent := (ofEndpoint_isOk_iff settled).mp succeeded
  obtain ⟨contributions, progress, gathers, tells⟩ := ofEndpoint_tells (σ := σ) settled
  have ends := tells (scope.below "security") before
  rw [if_neg fun loud => loud.2 (silent loud.1)] at ends
  cases ended.symm.trans ends
  exact ⟨contributions, made_of_gathers gathers small.fields silent before⟩

theorem made_of_ok {scope : Scope} {before after : Log σ} {authorization : Authorization}
    (ended : (ofEndpoint document endpoint).outcome scope before = (.ok authorization, after)) :
    ∃ contributions, Made document endpoint scope before contributions authorization after := by
  by_cases settled : Settled document endpoint
  · exact made_of_ended settled ended
  · have failed := ofEndpoint_fails settled scope before
    rw [ended] at failed
    contradiction

end Whole

/-- An undefined scheme has no place, and headers that are equal but for case are not apart. -/
theorem Settled.defined {document : Document} {endpoint : Endpoint}
    (settled : Settled document endpoint) :
    ∀ name ∈ considered document endpoint,
      Keyed.find? name document.components.securitySchemes ≠ none := by
  intro name listed undefined
  obtain ⟨placement, goes⟩ := settled.placed name listed
  rw [placed?, undefined] at goes
  contradiction

/-- Authorization succeeds exactly if the schemes in effect are settled, and nothing has to be
said where that is fatal; then fields, headers and query are made of one contribution each. An
undefined scheme or a header that is set twice is fatal under every policy. -/
theorem ofEndpoint_consistent (document : Document) (endpoint : Endpoint) (scope : Scope)
    (before : Log σ) :
    (((ofEndpoint document endpoint).outcome scope before).1.isOk = true ↔
      Settled document endpoint ∧
        (scope.policy = .failOnUnsupported → said document endpoint = [])) ∧
    (∀ authorization after,
      (ofEndpoint document endpoint).outcome scope before = (.ok authorization, after) →
        ∃ contributions,
          Made document endpoint scope before contributions authorization after) ∧
    ((∃ name ∈ considered document endpoint,
        Keyed.find? name document.components.securitySchemes = none) ∨
      (¬ (headerNames document endpoint).Pairwise
        fun first second => equalIgnoringCase first second = false) →
      Fails (ofEndpoint document endpoint : Run σ Authorization)) := by
  have refused : (∃ name ∈ considered document endpoint,
      Keyed.find? name document.components.securitySchemes = none) ∨
      (¬ (headerNames document endpoint).Pairwise
        fun first second => equalIgnoringCase first second = false) →
      ¬ Settled document endpoint := by
    rintro (⟨name, listed, undefined⟩ | clash) settled
    · exact settled.defined name listed undefined
    · exact clash settled.headersApart
  refine ⟨?_, fun authorization after ended => ?_, fun cause => ofEndpoint_fails (refused cause)⟩
  · by_cases settled : Settled document endpoint
    · rw [ofEndpoint_isOk_iff settled]
      exact (and_iff_right settled).symm
    · rw [ofEndpoint_fails settled scope before]
      exact iff_of_false nofun fun both => settled both.1
  · exact made_of_ok ended

/-- A key and a token next to a scheme that is not supported, a second token in the same header,
and a scheme that nobody defines. -/
theorem ofEndpoint_consistent_keys :
    let scheme (kind : String) (name location http : Option String) : SecurityScheme :=
      { kind := kind, name := name, location := location, scheme := http, bearerFormat := none
        description := none }
    let document : Document :=
      { (default : Document) with
        components :=
          { (default : Components) with
            securitySchemes :=
              [("api key", scheme "apiKey" (some "X-Key") (some "header") none),
                ("token", scheme "http" none none (some "Bearer")),
                ("login", scheme "oauth2" none none none),
                ("own", scheme "apiKey" (some "authorization") (some "header") none)] }
        security := some [[("token", []), ("api key", [])]] }
    let asking (names : List String) : Endpoint :=
      { (default : Endpoint) with security := some [names.map fun name => (name, [])] }
    let scope := Scope.root .generateTodos
    let log : Log Unit := Log.starting ()
    (∃ authorization after contributions,
      (ofEndpoint document (asking ["login", "token"])).outcome scope log =
        (.ok authorization, after) ∧
      Made document (asking ["login", "token"]) scope log contributions authorization after) ∧
    Fails (ofEndpoint document (asking ["own"]) : Run Unit Authorization) ∧
    Fails (ofEndpoint document (asking ["nobody"]) : Run Unit Authorization) := by
  intro scheme document asking scope log
  refine ⟨?_, ?_, ?_⟩
  · obtain ⟨authorization, after, ended⟩ := succeeds_of_isOk
      (show ((ofEndpoint document (asking ["login", "token"])).outcome scope log).1.isOk = true by
        decide)
    obtain ⟨contributions, made⟩ :=
      (ofEndpoint_consistent document (asking ["login", "token"]) scope log).2.1 authorization after
        ended
    exact ⟨authorization, after, contributions, ended, made⟩
  · refine (ofEndpoint_consistent document (asking ["own"]) scope log).2.2 (Or.inr ?_)
    have names : headerNames document (asking ["own"]) =
        ["authorization", "Authorization", "X-Key"] := by decide
    rw [names]
    decide
  · exact (ofEndpoint_consistent document (asking ["nobody"]) scope log).2.2
      (Or.inl ⟨"nobody", by decide, by decide⟩)

end Elm.Authorization

end ElmClient
