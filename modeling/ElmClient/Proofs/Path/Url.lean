/-
The path of a request. Read back, the segments of its URL are the segments of the path
template that are not empty: literals stand for their text, and every variable for the
path parameter of its name.
-/

import ElmClient.Elm.Request
import ElmClient.Proofs.Path.Literal
import ElmClient.Proofs.Path.Template
import ElmClient.Proofs.Run
import ElmClient.Proofs.Sample

namespace ElmClient.Elm

open Run Text

/-! ### Reading segments -/

def Interpolates (field : ParameterField) (expression : String) : Prop :=
  ∃ function,
    expression =
        "Url.percentEncode (" ++ (atom function ++ " " ++ parameterAccess field) ++ ")" ∨
      expression =
        "Url.percentEncode ("
          ++ ("Maybe.withDefault \"\" (" ++ atom function ++ " " ++ parameterAccess field ++ ")")
          ++ ")"

/-- What an operand of a segment is read as: a literal as its text, and an input field as
the variable whose path parameter it is. -/
inductive Reads (parameters : RequestParameters) : String → Piece → Prop
  | literal {expression text : String} (read : readLiteral? expression = some text) :
      Reads parameters expression (.literal text)
  | interpolation {field : ParameterField} {expression : String}
      (listed : field ∈ parameters.path) (interpolates : Interpolates field expression) :
      Reads parameters expression (.variable field.parameter.name)

def ReadsSegment (parameters : RequestParameters) (expression : String) (pieces : List Piece) :
    Prop :=
  ∃ operands, expression = join " ++ " operands ∧
    List.Forall₂ (Reads parameters) operands pieces

/-- The path that the segments of a URL are appended as. -/
def requestPath (readings : List (List Piece)) : String :=
  "/" ++ join "/" (readings.map fun pieces => String.ofList (Piece.chars pieces))

def HasField (parameters : RequestParameters) (name : String) : Prop :=
  ∃ field ∈ parameters.path, field.parameter.name = name

section Segments

variable {naming : Naming} {parameters : RequestParameters}

theorem interpolation_interpolates (field : ParameterField) :
    Returns (interpolation naming field) (Interpolates field) := by
  refine Returns.map (Returns.any _) fun function _ => ?_
  cases function with
  | always function => exact ⟨function, Or.inl rfl⟩
  | sometimes function => exact ⟨function, Or.inr rfl⟩

theorem pieceExpression_reads {piece : Piece}
    (has : ∀ name, piece.variableName? = some name → HasField parameters name) :
    Returns (pieceExpression naming parameters piece)
      fun expression => Reads parameters expression piece := by
  rcases piece with text | name
  · exact Returns.pure (.literal (readLiteral?_stringLiteral text))
  · unfold pieceExpression
    dsimp only
    split
    case h_1 field found =>
      have listed := List.mem_of_find?_eq_some found
      have same : field.parameter.name = name := by
        simpa using List.find?_some found
      rw [← same]
      exact (interpolation_interpolates field).imp fun _ => .interpolation listed
    case h_2 missing =>
      obtain ⟨field, listed, same⟩ := has name rfl
      refine absurd (List.find?_eq_none.mp missing field listed) ?_
      simpa using same

theorem segmentExpression_reads {segment : String} (inhabited : segment ≠ "")
    (has : ∀ name ∈ templateVariables segment, HasField parameters name) :
    Returns (segmentExpression naming parameters segment)
      fun expression => ReadsSegment parameters expression (Piece.ofTemplate segment) := by
  have pieces_ne_nil : Piece.ofTemplate segment ≠ [] := by
    intro none
    have characters := Piece.chars_ofTemplate segment
    rw [none] at characters
    exact inhabited (String.toList_inj.mp characters.symm)
  have operandsRead : Returns (Run.traverse (pieceExpression naming parameters)
      (Piece.ofTemplate segment))
      (List.Forall₂ (fun piece expression => Reads parameters expression piece)
        (Piece.ofTemplate segment)) :=
    Returns.traverseOf fun piece listed => pieceExpression_reads fun name variableName =>
      has name (List.mem_filterMap.mpr ⟨piece, listed, variableName⟩)
  unfold segmentExpression
  split
  case h_1 none => exact absurd none pieces_ne_nil
  case h_2 =>
    exact Returns.map operandsRead fun operands related => ⟨operands, rfl, related.flip⟩

/-! ### Accepted templates -/

variable {σ : Type}

theorem checkVariables_hasField {names : List String} :
    Returns (RequestParameters.checkVariables parameters.path names : Run σ Unit) fun _ =>
      ∀ name ∈ names, HasField parameters name := by
  induction names with
  | nil => exact Returns.pure nofun
  | cons name rest ih =>
      unfold RequestParameters.checkVariables
      split
      case isTrue found =>
        obtain ⟨field, listed, same⟩ := List.any_eq_true.mp found
        exact ih.imp fun _ others =>
          List.forall_mem_cons.mpr ⟨⟨field, listed, by simpa using same⟩, others⟩
      case isFalse => exact Returns.fail

theorem partition_hasField (endpoint : Endpoint) :
    Returns (RequestParameters.partition endpoint : Run σ RequestParameters) fun parameters =>
      ∀ name ∈ templateVariables endpoint.path, HasField parameters name := by
  refine Returns.bind (Returns.any _) fun placed _ => ?_
  refine Returns.bind checkVariables_hasField fun _ has => ?_
  exact Returns.pure has

theorem segments_read {path : String}
    (has : ∀ name ∈ templateVariables path, HasField parameters name) :
    Returns (Run.traverse (segmentExpression naming parameters) (pathSegments path))
      fun segments =>
        List.Forall₂ (ReadsSegment parameters) segments
          ((pathSegments path).map Piece.ofTemplate) := by
  have each : Returns (Run.traverse (segmentExpression naming parameters) (pathSegments path))
      (List.Forall₂ (fun segment expression =>
        ReadsSegment parameters expression (Piece.ofTemplate segment)) (pathSegments path)) := by
    refine Returns.traverseOf fun segment listed => ?_
    obtain ⟨cut, inhabited⟩ := List.mem_filter.mp listed
    refine segmentExpression_reads (by simpa using inhabited) fun name member => ?_
    exact has name (Piece.mem_templateVariables_of_segment cut member)
  exact each.imp fun segments related => List.forall₂_map_right_iff.mpr related.flip

end Segments

/-! ### Paths -/

/-- Slashes only stand before segments with text: none is doubled, and the last one ends
nothing but the path of the root. -/
def SlashesLead (path : String) : Prop :=
  path = "/" ∨ "" ∉ (splitOn '/' path).tail

instance (path : String) : Decidable (SlashesLead path) :=
  inferInstanceAs (Decidable (_ ∨ _))

theorem splitOn_join {segments : List String} (inhabited : segments ≠ [])
    (whole : ∀ segment ∈ segments, '/' ∉ segment.toList) :
    splitOn '/' (join "/" segments) = segments := by
  rw [splitOn, join, String.toList_intercalate]
  change (splitChars '/' (List.intercalate ['/'] (segments.map String.toList))).map _ = _
  rw [splitChars_intercalate, List.map_map]
  · exact List.map_id'' (fun segment => String.ofList_toList) segments
  · simpa using whole
  · simpa using inhabited

theorem join_splitOn (text : String) : join "/" (splitOn '/' text) = text := by
  have undone : (splitChars '/' text.toList).map (String.toList ∘ String.ofList) =
      splitChars '/' text.toList :=
    List.map_id'' (fun _ => String.toList_ofList) _
  refine String.toList_inj.mp ?_
  rw [join, String.toList_intercalate, splitOn, List.map_map, undone]
  exact intercalate_splitChars '/' text.toList

private theorem not_mem_of_mem_splitOn {text segment : String}
    (listed : segment ∈ splitOn '/' text) :
    '/' ∉ segment.toList := by
  obtain ⟨characters, cut, rfl⟩ := List.mem_map.mp listed
  rw [String.toList_ofList]
  exact not_mem_of_mem_splitChars cut

theorem join_inhabited_iff (text : String) :
    join "/" ((splitOn '/' text).filter fun segment => !segment.isEmpty) = text ↔
      text = "" ∨ "" ∉ splitOn '/' text := by
  constructor
  · intro whole
    by_cases none : ((splitOn '/' text).filter fun segment => !segment.isEmpty) = []
    · rw [none] at whole
      exact Or.inl whole.symm
    · have cut : splitOn '/' text =
          (splitOn '/' text).filter fun segment => !segment.isEmpty := by
        conv_lhs => rw [← whole]
        exact splitOn_join none fun segment kept =>
          not_mem_of_mem_splitOn (List.mem_of_mem_filter kept)
      refine Or.inr fun empty => ?_
      rw [cut] at empty
      exact absurd (List.mem_filter.mp empty).2 (by decide)
  · rintro (rfl | whole)
    · decide
    · have kept : ((splitOn '/' text).filter fun segment => !segment.isEmpty) =
          splitOn '/' text := by
        refine List.filter_eq_self.mpr fun segment listed => ?_
        have inhabited : segment ≠ "" := fun empty => whole (empty ▸ listed)
        simpa using inhabited
      rw [kept, join_splitOn]

/-- A path is its segments with text exactly when all its slashes lead to one. -/
theorem join_pathSegments_iff {path : String} (rooted : startsWith "/" path = true) :
    "/" ++ join "/" (pathSegments path) = path ↔ SlashesLead path := by
  obtain ⟨characters, behind⟩ := List.isPrefixOf_iff_prefix.mp rooted
  have written : path.toList = '/' :: characters := behind.symm
  have parts : path = "/" ++ String.ofList characters := by
    refine String.toList_inj.mp ?_
    rw [written, String.toList_append, String.toList_ofList (l := characters)]
    rfl
  have cut : splitOn '/' path = "" :: splitOn '/' (String.ofList characters) := by
    rw [splitOn, splitOn, written, String.toList_ofList, splitChars, if_pos rfl]
    rfl
  have segments : pathSegments path =
      (splitOn '/' (String.ofList characters)).filter fun segment => !segment.isEmpty := by
    rw [pathSegments, cut]
    rfl
  have root : path = "/" ↔ String.ofList characters = "" := by
    rw [parts]
    exact String.append_eq_left_iff
  rw [SlashesLead, root, cut, List.tail_cons, ← join_inhabited_iff, segments]
  conv_lhs => rw [parts]
  exact String.append_right_inj _

theorem pathSegments_variables (path : String) :
    (pathSegments path).flatMap templateVariables =
      Piece.unslashed (templateVariables path) := by
  rw [Piece.unslashed_templateVariables, pathSegments]
  induction splitOn '/' path with
  | nil => rfl
  | cons segment rest ih =>
      rw [List.filter_cons, List.flatMap_cons]
      split
      case isTrue => rw [List.flatMap_cons, ih]
      case isFalse empty =>
        have none : segment = "" := by simpa using empty
        rw [none, ih]
        rfl

private theorem requestPath_ofTemplate (segments : List String) :
    requestPath (segments.map Piece.ofTemplate) = "/" ++ join "/" segments := by
  have undone : (fun pieces => String.ofList (Piece.chars pieces)) ∘ Piece.ofTemplate = id := by
    funext segment
    rw [Function.comp_apply, Piece.chars_ofTemplate, String.ofList_toList, id]
  rw [requestPath, List.map_map, undone, List.map_id]

private theorem readings_variables (path : String) :
    ((pathSegments path).map Piece.ofTemplate).flatMap (List.filterMap Piece.variableName?) =
      Piece.unslashed (templateVariables path) := by
  rw [List.flatMap_map, ← pathSegments_variables]
  rfl

/-- The path of a request is the path of its operation without the segments that have no
text: it is the template itself exactly when the template has none behind its first slash.
The variables put in are those of the template that hold no slash, in order. -/
theorem urlExpression_path {naming : Naming} {endpoint : Endpoint} {base : BaseUrl}
    {authorization : Authorization} {parameters : RequestParameters}
    {checking running : Scope} {before after asked reached : Log Helpers} {url : String}
    (rooted : startsWith "/" endpoint.path = true)
    (accepted : (RequestParameters.partition endpoint).outcome checking before =
      (.ok parameters, after))
    (written : (urlExpression naming endpoint base authorization parameters).outcome running asked =
      (.ok url, reached)) :
    ∃ segments readings query,
      url = "Url.Builder.crossOrigin " ++ atom base.expression ++ " " ++ list segments ++ " "
        ++ query ∧
      List.Forall₂ (ReadsSegment parameters) segments readings ∧
      requestPath readings = "/" ++ join "/" (pathSegments endpoint.path) ∧
      (requestPath readings = endpoint.path ↔ SlashesLead endpoint.path) ∧
      readings.flatMap (List.filterMap Piece.variableName?) =
        Piece.unslashed (templateVariables endpoint.path) := by
  have has := partition_hasField endpoint checking before parameters after accepted
  have assembled : Returns (urlExpression naming endpoint base authorization parameters)
      fun url => ∃ segments query,
        url = "Url.Builder.crossOrigin " ++ atom base.expression ++ " " ++ list segments ++ " "
          ++ query ∧
        List.Forall₂ (ReadsSegment parameters) segments
          ((pathSegments endpoint.path).map Piece.ofTemplate) := by
    refine Returns.bind (segments_read has) fun segments related => ?_
    exact Returns.map (Returns.any _) fun entries _ => ⟨segments, _, rfl, related⟩
  obtain ⟨segments, query, equal, related⟩ := assembled running asked url reached written
  have path := requestPath_ofTemplate (pathSegments endpoint.path)
  refine ⟨segments, _, query, equal, related, path, ?_, readings_variables endpoint.path⟩
  rw [path]
  exact join_pathSegments_iff rooted

def Endpoint.reading (path : String) (parameters : List EndpointParameter) : Endpoint :=
  { id := "read", name := ⟨"Read"⟩, method := .get, path := path, summary := none
    description := none, deprecated := false, parameters := parameters, body := none
    responses := [], security := none }

def Naming.plain : Naming :=
  { namespaceName := "Api", declared := ⟨[], []⟩, components := [], formats := ⟨[]⟩ }

/-- The path of a pet: a segment of text and one that is a variable. -/
theorem urlExpression_path_pet :
    let id : EndpointParameter :=
      { name := "id", location := .path, required := true
        shape := .primitive ⟨.string, none, none⟩, doc := none }
    let endpoint := Endpoint.reading "/pets/\x7bid\x7d" [id]
    let scope := Scope.root .failOnUnsupported
    let log : Log Helpers := Log.starting []
    ∃ parameters after url reached,
      (RequestParameters.partition endpoint).outcome scope log = (.ok parameters, after) ∧
      (urlExpression Naming.plain endpoint (.literal "") Authorization.empty parameters).outcome
        scope log = (.ok url, reached) ∧
      ∃ segments readings query,
        url = "Url.Builder.crossOrigin " ++ atom (BaseUrl.literal "").expression ++ " "
          ++ list segments ++ " " ++ query ∧
        List.Forall₂ (ReadsSegment parameters) segments readings ∧
        requestPath readings = endpoint.path ∧
        readings.flatMap (List.filterMap Piece.variableName?) = ["id"] := by
  intro id endpoint scope log
  have succeeds : (match (RequestParameters.partition endpoint).outcome scope log with
      | (.ok parameters, _) =>
          ((urlExpression Naming.plain endpoint (.literal "") Authorization.empty
            parameters).outcome scope log).1.isOk
      | (.error _, _) => false) = true := by
    decide
  split at succeeds
  case h_1 parameters after accepted =>
    obtain ⟨url, reached, written⟩ := succeeds_of_isOk succeeds
    obtain ⟨segments, readings, query, equal, related, -, whole, named⟩ :=
      urlExpression_path (by decide) accepted written
    exact ⟨parameters, after, url, reached, accepted, written, segments, readings, query, equal,
      related, whole.mpr (by decide), named.trans (by decide)⟩
  case h_2 => contradiction

/-- A slash at the end of a path is lost: the URL has one segment, and whatever that is read
as, it is not the template. -/
theorem trailing_slash_lost :
    let endpoint := Endpoint.reading "/pets/" []
    let parameters : RequestParameters := ⟨[], [], []⟩
    let scope := Scope.root .failOnUnsupported
    let log : Log Helpers := Log.starting []
    startsWith "/" endpoint.path = true ∧
      (RequestParameters.partition endpoint).outcome scope log = (.ok parameters, log) ∧
      (urlExpression Naming.plain endpoint (.literal "") Authorization.empty parameters).outcome
          scope log =
        (.ok ("Url.Builder.crossOrigin \"\" " ++ list ["\"pets\""] ++ " []"), log) ∧
      ∀ readings, List.Forall₂ (ReadsSegment parameters) ["\"pets\""] readings →
        requestPath readings ≠ endpoint.path := by
  intro endpoint parameters scope log
  have noVariable : templateVariables endpoint.path = [] := by decide
  have segments : pathSegments endpoint.path = ["pets"] := by decide
  have base : atom (BaseUrl.literal "").expression = "\"\"" := by decide
  refine ⟨by decide, ?_, ?_, ?_⟩
  · rw [RequestParameters.partition, noVariable]
    rfl
  · rw [urlExpression, segments, base]
    rfl
  · rintro readings (_ | ⟨⟨operands, written, read⟩, _ | _⟩)
    rcases read with _ | ⟨first, _ | ⟨_, _⟩⟩
    · exact absurd written (by decide)
    · obtain rfl : "\"pets\"" = _ := written
      cases first with
      | literal read =>
          have text := Option.some.inj (read.symm.trans (readLiteral?_stringLiteral "pets"))
          subst text
          decide
      | interpolation listed => exact absurd listed List.not_mem_nil
    · have blank : ' ' ∈ "\"pets\"".toList := by
        rw [written, join, String.intercalate_cons_cons]
        simp
      exact absurd blank (by decide)

end ElmClient.Elm
