/-
Distinct names. A wanted name that is refused is retried with the numbers
2, 3, … until one is accepted. Among `taken.length + 1` distinct candidates one
is not taken, so the search needs no more tries than there are taken names.
-/

namespace ElmClient.Fresh

variable {α : Type}

/-- The candidate of a try: the wanted name itself, then its numbered forms. -/
def candidate (base : α) (numbered : α → Nat → α) : Nat → α
  | 0 => base
  | attempt + 1 => numbered base (attempt + 2)

/-- The first accepted candidate from `attempt` on; after `tries` refusals the
next candidate is taken unseen. -/
def search (refused : α → Bool) (base : α) (numbered : α → Nat → α) : Nat → Nat → α
  | 0, attempt => candidate base numbered attempt
  | tries + 1, attempt =>
      if refused (candidate base numbered attempt) then
        search refused base numbered tries (attempt + 1)
      else
        candidate base numbered attempt

def unused [BEq α] (numbered : α → Nat → α) (taken : List α) (base : α) : α :=
  search taken.contains base numbered taken.length 0

def assignAfter [BEq α] (numbered : α → Nat → α) (taken : List α) : List α → List α
  | [] => []
  | base :: rest =>
      let name := unused numbered taken base
      name :: assignAfter numbered (name :: taken) rest

def assign [BEq α] (numbered : α → Nat → α) (bases : List α) : List α :=
  assignAfter numbered [] bases

def appendNumber (base : String) (number : Nat) : String :=
  base ++ toString number

@[simp] theorem length_assignAfter [BEq α] (numbered : α → Nat → α) (taken bases : List α) :
    (assignAfter numbered taken bases).length = bases.length := by
  induction bases generalizing taken with
  | nil => rfl
  | cons base rest hypothesis => simp [assignAfter, hypothesis]

end ElmClient.Fresh
