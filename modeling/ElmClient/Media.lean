/-
Response statuses and media types. Statuses are ordered: codes, then ranges such
as `2XX`, then `default`. JSON is preferred to plain text, and text to bytes.
-/

import ElmClient.Sorted
import ElmClient.Text.Blank
import ElmClient.Text.Edit

namespace ElmClient

namespace Status

def isCode (status : String) : Bool :=
  status.toList.all Char.isDigit

def isDefault (status : String) : Bool :=
  Text.equalIgnoringCase status "default"

def rank (status : String) : Nat :=
  if isCode status then 0 else if isDefault status then 2 else 1

def orderText (status : String) : String :=
  if rank status = 1 then Text.upper status else status

def before (left right : String) : Bool :=
  rank left < rank right
    || (rank left == rank right && decide (orderText left < orderText right))

/-- Sort by status; statuses that are ordered alike keep their order. -/
def sort {α : Type} (status : α → String) (items : List α) : List α :=
  Sorted.sortBy before status items

def isSuccess (status : String) : Bool :=
  Text.startsWith "2" status || Text.startsWith "3" status

/-- What an error decoder is looked up by: the code, the range or `default`. -/
def key (status : String) : String :=
  if isDefault status then "default" else Text.upper status

end Status

namespace MediaType

def essence (name : String) : String :=
  Text.lower (Text.trim (Text.before ';' name))

def isJson (name : String) : Bool :=
  essence name == "application/json" || Text.endsWith "+json" (essence name)

def rank? (name : String) : Option Nat :=
  if isJson name then some 0
  else if essence name == "text/plain" then some 1
  else if essence name == "application/octet-stream" then some 2
  else none

def select? {α : Type} (content : List (String × α)) : Option (String × α) :=
  let ofRank (rank : Nat) := content.find? fun entry => rank? entry.1 == some rank
  (ofRank 0).or ((ofRank 1).or (ofRank 2))

end MediaType

end ElmClient
