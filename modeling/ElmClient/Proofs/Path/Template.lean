/-
Templates in pieces. The texts of the pieces give the template back, and cutting a
template at its slashes cuts only variables that hold one, so all other variables are
those of the segments, in order.
-/

import ElmClient.Elm.Template
import ElmClient.Proofs.Text.Split

namespace ElmClient.Elm.Piece

open Text

/-! ### Texts -/

def chars (pieces : List Piece) : List Char :=
  pieces.flatMap fun piece => piece.text.toList

def pending (text : List Char) : Option (List Char) → List Char
  | none => text.reverse
  | some name => text.reverse ++ '\x7b' :: name.reverse

private theorem chars_append (left right : List Piece) :
    chars (left ++ right) = chars left ++ chars right :=
  List.flatMap_append

private theorem chars_cons (piece : Piece) (pieces : List Piece) :
    chars (piece :: pieces) = piece.text.toList ++ chars pieces :=
  List.flatMap_cons

private theorem chars_ofLiteral (reversed : List Char) :
    chars (ofLiteral reversed) = reversed.reverse := by
  cases reversed with
  | nil => rfl
  | cons first rest => simp [ofLiteral, chars, text]

private theorem chars_scan (text : List Char) (name : Option (List Char)) (characters : List Char) :
    chars (scan text name characters) = pending text name ++ characters := by
  induction text, name, characters using scan.induct with
  | case1 text => simp [scan, chars_ofLiteral, pending]
  | case2 text name => simp [scan, chars_ofLiteral, pending]
  | case3 text rest ih => simp [scan, ih, pending]
  | case4 text character rest noBrace ih => simp [scan, ih, pending]
  | case5 text name rest ih => simp [scan, ih, pending]
  | case6 text rest ih => simp [scan, ih, pending]
  | case7 text last name rest ih =>
      rw [scan, chars_append, chars_cons, chars_ofLiteral, ih]
      simp [pending, Piece.text]
  | case8 text name character rest _ _ _ ih => simp [scan, ih, pending]

theorem chars_ofTemplate (template : String) : chars (ofTemplate template) = template.toList :=
  chars_scan [] none template.toList

/-! ### Variables -/

/-- The variable that a closing brace ends; an empty name is none. -/
def named (reversed : List Char) : List String :=
  if reversed.isEmpty then [] else [String.ofList reversed.reverse]

def opened (open? : Option (List Char)) (character : Char) : Option (List Char) :=
  if character = '\x7b' then some []
  else if character = '\x7d' then none
  else open?.map (character :: ·)

def closed (open? : Option (List Char)) (character : Char) : List String :=
  if character = '\x7d' then (open?.map named).getD [] else []

def variablesFrom (open? : Option (List Char)) : List Char → List String
  | [] => []
  | character :: rest => closed open? character ++ variablesFrom (opened open? character) rest

theorem ofLiteral_variables (reversed : List Char) :
    (ofLiteral reversed).filterMap variableName? = [] := by
  cases reversed <;> rfl

theorem scan_variables (text : List Char) (name : Option (List Char)) (characters : List Char) :
    (scan text name characters).filterMap variableName? = variablesFrom name characters := by
  induction text, name, characters using scan.induct with
  | case1 text => rw [scan, ofLiteral_variables, variablesFrom]
  | case2 text name => rw [scan, ofLiteral_variables, variablesFrom]
  | case3 text rest ih => rw [scan, ih]; rfl
  | case4 text character rest noBrace ih =>
      have unopened : character ≠ '\x7b' := noBrace
      rw [scan, ih, variablesFrom]
      · simp [closed, opened, unopened]
      · exact noBrace
  | case5 text name rest ih => rw [scan, ih]; rfl
  | case6 text rest ih => rw [scan, ih]; rfl
  | case7 text last name rest ih =>
      rw [scan, List.filterMap_append, ofLiteral_variables, List.filterMap_cons, variableName?, ih]
      rfl
  | case8 text name character rest noOpen noClose noEnd ih =>
      have unopened : character ≠ '\x7b' := noOpen
      have unclosed : character ≠ '\x7d' := by
        cases name with
        | nil => exact noClose rfl
        | cons last name => exact noEnd last name rfl
      rw [scan, ih, variablesFrom]
      · simp [closed, opened, unopened, unclosed]
      · exact noOpen
      · exact noClose
      · exact noEnd

theorem templateVariables_eq (template : String) :
    templateVariables template = variablesFrom none template.toList :=
  scan_variables [] none template.toList

/-! ### Segments -/

def unslashed (names : List String) : List String :=
  names.filter fun name => !name.toList.contains '/'

private theorem unslashed_append (left right : List String) :
    unslashed (left ++ right) = unslashed left ++ unslashed right :=
  List.filter_append ..

private theorem unslashed_named {name : List Char} (slash : '/' ∈ name) :
    unslashed (named name) = [] := by
  unfold named
  split
  · rfl
  · refine List.filter_eq_nil_iff.mpr fun other member => ?_
    rw [List.mem_singleton.mp member, String.toList_ofList]
    simpa using slash

/-- Once a name holds a slash, it is no different from literal text. -/
theorem unslashed_variablesFrom_slash (name : List Char) (slash : '/' ∈ name)
    (characters : List Char) :
    unslashed (variablesFrom (some name) characters) =
      unslashed (variablesFrom none characters) := by
  induction characters generalizing name with
  | nil => rfl
  | cons character rest ih =>
      rw [variablesFrom, variablesFrom, unslashed_append, unslashed_append]
      by_cases opens : character = '\x7b'
      · simp [closed, opened, opens]
      · by_cases closes : character = '\x7d'
        · have dropped : unslashed [] = [] := rfl
          simp [closed, opened, closes, unslashed_named slash, dropped]
        · have longer := ih (character :: name) (List.mem_cons_of_mem _ slash)
          simp [closed, opened, opens, closes, longer]

/-- The variables of segments; the first one goes on behind what was read so far. -/
def segmentVariables (open? : Option (List Char)) : List (List Char) → List String
  | [] => []
  | first :: rest =>
      unslashed (variablesFrom open? first)
        ++ rest.flatMap fun segment => unslashed (variablesFrom none segment)

/-- Cutting at slashes keeps all variables that hold none. -/
theorem unslashed_variablesFrom (open? : Option (List Char)) (characters : List Char) :
    unslashed (variablesFrom open? characters) =
      segmentVariables open? (splitChars '/' characters) := by
  induction characters generalizing open? with
  | nil => rfl
  | cons character rest ih =>
      have inhabited := splitChars_ne_nil '/' rest
      rw [splitChars]
      by_cases slash : character = '/'
      · subst slash
        have closedHere : variablesFrom open? ('/' :: rest) =
            variablesFrom (open?.map ('/' :: ·)) rest := rfl
        have forgotten : unslashed (variablesFrom (open?.map ('/' :: ·)) rest) =
            unslashed (variablesFrom none rest) := by
          cases open? with
          | none => rfl
          | some name => exact unslashed_variablesFrom_slash _ List.mem_cons_self rest
        rw [if_pos rfl, closedHere, forgotten, ih]
        cases segments : splitChars '/' rest with
        | nil => exact absurd segments inhabited
        | cons first others => rfl
      · rw [if_neg slash]
        cases segments : splitChars '/' rest with
        | nil => exact absurd segments inhabited
        | cons first others =>
            rw [variablesFrom, unslashed_append, ih, segments]
            dsimp only
            rw [segmentVariables, segmentVariables, variablesFrom, unslashed_append,
              List.append_assoc]

private theorem variablesFrom_unslashed {open? : Option (List Char)} {characters : List Char}
    (before : ∀ name, open? = some name → '/' ∉ name) (behind : '/' ∉ characters) :
    ∀ name ∈ variablesFrom open? characters, '/' ∉ name.toList := by
  induction characters generalizing open? with
  | nil => exact nofun
  | cons character rest ih =>
      obtain ⟨different, restNone⟩ := List.ne_and_not_mem_of_not_mem_cons behind
      intro name member
      rw [variablesFrom] at member
      rcases List.mem_append.mp member with here | later
      · unfold closed at here
        split at here
        · cases open? with
          | none => exact absurd here List.not_mem_nil
          | some reversed =>
              change name ∈ named reversed at here
              unfold named at here
              split at here
              · exact absurd here List.not_mem_nil
              · rw [List.mem_singleton.mp here, String.toList_ofList, List.mem_reverse]
                exact before reversed rfl
        · exact absurd here List.not_mem_nil
      · refine ih ?_ restNone name later
        intro reversed equal
        unfold opened at equal
        split at equal
        · obtain rfl := Option.some.inj equal
          exact List.not_mem_nil
        · split at equal
          · contradiction
          · obtain ⟨shorter, same, rfl⟩ := Option.map_eq_some_iff.mp equal
            exact List.not_mem_cons_of_ne_of_not_mem different (before shorter same)

private theorem unslashed_eq {names : List String} (whole : ∀ name ∈ names, '/' ∉ name.toList) :
    unslashed names = names := by
  refine List.filter_eq_self.mpr fun name member => ?_
  simpa using whole name member

theorem unslashed_templateVariables (template : String) :
    unslashed (templateVariables template) =
      (splitOn '/' template).flatMap templateVariables := by
  have each : ∀ segment ∈ splitChars '/' template.toList,
      unslashed (variablesFrom none segment) = variablesFrom none segment := fun segment listed =>
    unslashed_eq (variablesFrom_unslashed nofun (not_mem_of_mem_splitChars listed))
  have segments : segmentVariables none (splitChars '/' template.toList) =
      (splitChars '/' template.toList).flatMap fun segment => variablesFrom none segment := by
    rw [← List.flatMap_congr each]
    cases splitChars '/' template.toList <;> rfl
  rw [templateVariables_eq, unslashed_variablesFrom, segments, splitOn, List.flatMap_map]
  refine List.flatMap_congr fun segment _ => ?_
  rw [templateVariables_eq, String.toList_ofList]

theorem mem_templateVariables_of_segment {template segment name : String}
    (listed : segment ∈ splitOn '/' template) (member : name ∈ templateVariables segment) :
    name ∈ templateVariables template := by
  have kept : name ∈ unslashed (templateVariables template) := by
    rw [unslashed_templateVariables]
    exact List.mem_flatMap.mpr ⟨segment, listed, member⟩
  exact List.mem_of_mem_filter kept

end ElmClient.Elm.Piece
