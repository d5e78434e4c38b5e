/-
JSON pointers as RFC 6901 reads them, and the ways they lead into a value. A path that was
rendered is read back whatever its keys are: they may hold slashes and tildes, and be empty.
-/

import ElmClient.Pointer
import ElmClient.Proofs.Json.Place
import ElmClient.Proofs.Text.Split

namespace ElmClient

def Json.Step.token : Json.Step → String
  | .member key => key
  | .item index => toString index

namespace Pointer

open Json (Step)

/-- The key that a reference token stands for: `~1` is undone before `~0` (RFC 6901, 4). -/
def decodeToken (token : List Char) : String :=
  String.ofList (Text.replaceChars ['~', '0'] ['~'] (Text.replaceChars ['~', '1'] ['/'] token))

/-- The reference tokens of a pointer. There are none in the empty text; any other pointer
has a slash in front of each (RFC 6901, 3). -/
def decode? (pointer : String) : Option (List String) :=
  match pointer.toList with
  | [] => some []
  | '/' :: rest => some ((Text.splitChars '/' rest).map decodeToken)
  | _ => none

/-- An array index is written with decimal digits and without leading zeros. -/
def index? (token : String) : Option Nat :=
  let index := Nat.ofDigitChars 10 token.toList 0
  if toString index = token then some index else none

def step? (token : String) : Json → Option Step
  | .object _ => some (.member token)
  | .array _ => (index? token).map .item
  | _ => none

def wayOf? : List String → Json → Option (List Step)
  | [], _ => some []
  | token :: rest, json => do
      let step ← step? token json
      let child ← json.child? step
      return step :: (← wayOf? rest child)

def way? (pointer : String) (json : Json) : Option (List Step) :=
  (decode? pointer).bind fun tokens => wayOf? tokens json

/-! ### Tokens -/

/-- What is left of an escaped key when its slashes are back. -/
def tildesEscaped : List Char → List Char
  | [] => []
  | '~' :: rest => '~' :: '0' :: tildesEscaped rest
  | character :: rest => character :: tildesEscaped rest

theorem replaceFrom_cons_of_ne {lead head : Char} (different : head ≠ lead) (second : Char)
    (replacement rest : List Char) :
    Text.replaceFrom [lead, second] replacement 0 (head :: rest) =
      head :: Text.replaceFrom [lead, second] replacement 0 rest := by
  have notHere : ¬ [lead, second].isPrefixOf (head :: rest) = true := by simp [different.symm]
  rw [Text.replaceFrom, if_neg notHere]

theorem replaceFrom_pair (lead second : Char) (replacement rest : List Char) :
    Text.replaceFrom [lead, second] replacement 0 (lead :: second :: rest) =
      replacement ++ Text.replaceFrom [lead, second] replacement 0 rest := by
  have here : [lead, second].isPrefixOf (lead :: second :: rest) = true := by simp
  rw [Text.replaceFrom, if_pos here]
  rfl

theorem replaceFrom_other {lead second follower : Char} (different : follower ≠ second)
    (notLead : follower ≠ lead) (replacement rest : List Char) :
    Text.replaceFrom [lead, second] replacement 0 (lead :: follower :: rest) =
      lead :: follower :: Text.replaceFrom [lead, second] replacement 0 rest := by
  have notHere : ¬ [lead, second].isPrefixOf (lead :: follower :: rest) = true := by
    simp [different.symm]
  rw [Text.replaceFrom, if_neg notHere, replaceFrom_cons_of_ne notLead]

private theorem slashes_back (key : List Char) :
    Text.replaceChars ['~', '1'] ['/'] (escapeChars key) = tildesEscaped key := by
  rw [Text.replaceChars]
  fun_induction escapeChars key with
  | case1 => rfl
  | case2 rest ih => rw [tildesEscaped, replaceFrom_other (by decide) (by decide), ih]
  | case3 rest ih =>
      rw [tildesEscaped, replaceFrom_pair, ih]
      · rfl
      · decide
  | case4 character rest notTilde notSlash ih =>
      rw [tildesEscaped, replaceFrom_cons_of_ne notTilde, ih]
      exact notTilde

private theorem tildes_back (key : List Char) :
    Text.replaceChars ['~', '0'] ['~'] (tildesEscaped key) = key := by
  rw [Text.replaceChars]
  fun_induction tildesEscaped key with
  | case1 => rfl
  | case2 rest ih => rw [replaceFrom_pair, ih]; rfl
  | case3 character rest notTilde ih => rw [replaceFrom_cons_of_ne notTilde, ih]

theorem decodeToken_escapeChars (key : String) : decodeToken (escapeChars key.toList) = key := by
  rw [decodeToken, slashes_back, tildes_back, String.ofList_toList]

theorem slash_not_mem_escapeChars (key : List Char) : '/' ∉ escapeChars key := by
  fun_induction escapeChars key with
  | case1 => exact List.not_mem_nil
  | case2 rest ih => simp [ih]
  | case3 rest ih => simp [ih]
  | case4 character rest notTilde notSlash ih => simp [ih, Ne.symm notSlash]

/-! ### Paths -/

theorem toList_render {path : List String} (below : path ≠ []) :
    (render path).toList =
      '/' :: List.intercalate ['/'] (path.map fun key => escapeChars key.toList) := by
  obtain ⟨key, rest, rfl⟩ := List.exists_cons_of_ne_nil below
  have joined : render (key :: rest) =
      String.join ((key :: rest).map fun key => "/" ++ escape key) :=
    rfl
  rw [joined]
  induction rest generalizing key with
  | nil => simp [escape, List.intercalate_singleton]
  | cons next rest ih =>
      rw [List.map_cons, String.join_cons, String.toList_append,
        ih next (List.cons_ne_nil next rest) rfl, List.map_cons, List.map_cons,
        List.map_cons, List.intercalate_cons_cons]
      simp [escape]

private theorem decode?_render {path : List String} (below : path ≠ []) :
    decode? (render path) = some path := by
  have whole : ∀ piece ∈ path.map fun key => escapeChars key.toList, '/' ∉ piece := by
    intro piece listed
    obtain ⟨key, _, rfl⟩ := List.mem_map.mp listed
    exact slash_not_mem_escapeChars key.toList
  simp only [decode?, toList_render below]
  rw [Text.splitChars_intercalate whole (mt List.map_eq_nil_iff.mp below), List.map_map]
  exact congrArg some (List.map_id'' (fun key => decodeToken_escapeChars key) path)

/-! ### Ways -/

private theorem index?_toString (index : Nat) : index? (toString index) = some index := by
  have read : Nat.ofDigitChars 10 (toString index).toList 0 = index := by
    rw [Nat.toString_eq_ofList_toDigits, String.toList_ofList, Nat.ofDigitChars_ten_toDigits]
  simp only [index?, read, if_pos]

private theorem step?_token {json child : Json} {step : Step}
    (found : json.child? step = some child) :
    step? step.token json = some step := by
  cases step with
  | member key =>
      cases json with
      | object entries => rfl
      | _ => contradiction
  | item index =>
      cases json with
      | array items =>
          rw [step?, Step.token, index?_toString]
          rfl
      | _ => contradiction

private theorem wayOf?_tokens {json value : Json} {way : List Step}
    (found : json.at? way = some value) :
    wayOf? (way.map Step.token) json = some way := by
  induction way generalizing json with
  | nil => rfl
  | cons step rest ih =>
      obtain ⟨child, inside, later⟩ := Json.child?_of_at? found
      rw [List.map_cons, wayOf?, step?_token inside, Option.bind_eq_bind, Option.bind_some, inside]
      simp only [Option.bind_eq_bind, Option.bind_some, ih later]
      rfl

/-- A place below the root is found again by the pointer to it. -/
theorem way?_render {json value : Json} {way : List Step} (found : json.at? way = some value)
    (below : way ≠ []) : way? (render (way.map Step.token)) json = some way := by
  rw [way?, decode?_render (mt List.map_eq_nil_iff.mp below), Option.bind_some,
    wayOf?_tokens found]

end Pointer

end ElmClient
