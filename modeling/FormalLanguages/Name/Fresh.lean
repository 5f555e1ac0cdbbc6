import FormalLanguages.Name.Subscript

namespace FormalLanguages.Name

/-! A name that is already taken is counted up: `A` to `A₁`, `A₁` to `A₂`, until
a free name is met. A choice of name remembers every name that was considered. -/

structure Choice where
  name : String
  considered : List String
deriving DecidableEq, Repr

/-- The numbers of the attempts after a given one. The greatest number of 64 bits is followed by
zero. After all of them the same numbers would come again, but no memory holds that many taken
names: longer numbers stand in for them there, so that every search ends. -/
def attempted (number attempt : Nat) : Nat :=
  if attempt < numberLimit then (number + 1 + attempt) % numberLimit else attempt

def reading (name : String) : Reading := (read? name).getD ⟨name, 0⟩

def candidate (reading : Reading) (attempt : Nat) : String :=
  numbered reading.stem (attempted reading.number attempt)

/-- Attempts with different numbers give different names, so among one more name than are taken
there is a free one: `attempts` is never used up before it is found. -/
def firstFree (reading : Reading) (taken : List String) : (attempts attempt : Nat) → Choice
  | 0, attempt => ⟨candidate reading attempt, [candidate reading attempt]⟩
  | attempts + 1, attempt =>
      let name := candidate reading attempt
      if name ∈ taken then
        let later := firstFree reading taken attempts (attempt + 1)
        ⟨later.name, name :: later.considered⟩
      else
        ⟨name, [name]⟩

def chooseNext (name : String) (taken : List String) : Choice :=
  firstFree (reading name) taken taken.length 0

def chooseOwn (name : String) (taken : List String) : Choice :=
  if name ∈ taken then
    let next := chooseNext name taken
    ⟨next.name, name :: next.considered⟩
  else
    ⟨name, [name]⟩

def countUp (name : String) (taken : List String) : String := (chooseNext name taken).name

def freshOrSelf (name : String) (taken : List String) : String := (chooseOwn name taken).name

example : countUp "A" ["A₁", "A₂"] = "A₃" := by decide
example : countUp "A₁" [] = "A₂" := by decide
example : freshOrSelf "B" ["B"] = "B₁" := by decide

end FormalLanguages.Name
