/-
Keys as steps of a JSON pointer (RFC 6901): `~` is written `~0` and `/` is
written `~1`. A tilde before any other character stands for itself when read.
-/

namespace ElmClient.Pointer

def escapeChars : List Char → List Char
  | [] => []
  | '~' :: rest => '~' :: '0' :: escapeChars rest
  | '/' :: rest => '~' :: '1' :: escapeChars rest
  | character :: rest => character :: escapeChars rest

def unescapeChars : List Char → List Char
  | [] => []
  | '~' :: '0' :: rest => '~' :: unescapeChars rest
  | '~' :: '1' :: rest => '/' :: unescapeChars rest
  | character :: rest => character :: unescapeChars rest

def escape (key : String) : String :=
  String.ofList (escapeChars key.toList)

def unescape (step : String) : String :=
  String.ofList (unescapeChars step.toList)

/-- The pointer to the root is written as a lone slash. -/
def render (path : List String) : String :=
  match path with
  | [] => "/"
  | steps => String.join (steps.map fun key => "/" ++ escape key)

end ElmClient.Pointer
